import TermNet.Proofs.Pattern.Built
import TermNet.Proofs.Term.Canonical

namespace TermNet

/-!
# Substitution and canonical trees

What a tree becomes only depends on the bindings of its variables, and making operations
canonical changes nothing, since the terms are made canonical anyway.

* `PatternTerm.substituteRun_congr` — only the variables of the tree count;
* `PatternTerm.substituteRun_build` — canonical trees become the same terms;
* `PatternTerm.substituteRun_mapVariables` — renaming the variables is renaming the
  bindings;
* `PatternTerm.canonical` — a tree with its operations made canonical.
-/

namespace PatternTerm

variable {σ τ : Substitution} {head : Head}

/-! ### Lists of trees -/

/-- Substituting in the first tree and in the others. -/
theorem substituteAll_cons (σ : Substitution) (p : PatternTerm) (ps : List PatternTerm) :
    substituteAll σ (p :: ps) =
      (p.substituteRun σ).bind fun ts => (substituteAll σ ps).map (ts ++ ·) := by
  rw [substituteAll]
  cases p.substituteRun σ <;> cases substituteAll σ ps <;> rfl

/-- Substituting in two lists of trees, one behind the other. -/
theorem substituteAll_append (σ : Substitution) (ps qs : List PatternTerm) :
    substituteAll σ (ps ++ qs) =
      (substituteAll σ ps).bind fun ts => (substituteAll σ qs).map (ts ++ ·) := by
  induction ps with
  | nil =>
    rw [List.nil_append, substituteAll]
    cases substituteAll σ qs <;> rfl
  | cons p ps ih =>
    rw [List.cons_append, substituteAll_cons, substituteAll_cons, ih]
    cases p.substituteRun σ with
    | none => rfl
    | some ts =>
      cases substituteAll σ ps with
      | none => rfl
      | some rest =>
        cases substituteAll σ qs with
        | none => rfl
        | some more => simp

/-- Substituting in a list of one tree. -/
theorem substituteAll_singleton (σ : Substitution) (p : PatternTerm) :
    substituteAll σ [p] = p.substituteRun σ := by
  rw [substituteAll_cons]
  cases p.substituteRun σ with
  | none => rfl
  | some ts => simp [substituteAll]

/-- What a list of trees becomes, tree by tree. -/
theorem substituteAll_eq_some_iff {ps : List PatternTerm} {ts : List Term} :
    substituteAll σ ps = some ts ↔ ∃ parts : List (List Term),
      List.Forall₂ (fun p part => p.substituteRun σ = some part) ps parts ∧ parts.flatten = ts := by
  induction ps generalizing ts with
  | nil =>
    rw [substituteAll]
    constructor
    · intro h
      exact ⟨[], .nil, Option.some.inj h⟩
    · rintro ⟨parts, hparts, rfl⟩
      cases hparts
      rfl
  | cons p ps ih =>
    rw [substituteAll_cons]
    constructor
    · intro h
      obtain ⟨part, hpart, h⟩ := Option.bind_eq_some_iff.mp h
      obtain ⟨rest, hrest, rfl⟩ := Option.map_eq_some_iff.mp h
      obtain ⟨parts, hparts, rfl⟩ := ih.mp hrest
      exact ⟨part :: parts, .cons hpart hparts, rfl⟩
    · rintro ⟨parts, hparts, rfl⟩
      cases hparts with
      | cons hpart hparts => simp [hpart, ih.mpr ⟨_, hparts, rfl⟩]

/-- Lists of trees become the same if each tree does. -/
theorem substituteAll_map {f : PatternTerm → PatternTerm} {ps : List PatternTerm}
    (h : ∀ p ∈ ps, (f p).substituteRun τ = p.substituteRun σ) :
    substituteAll τ (ps.map f) = substituteAll σ ps := by
  induction ps with
  | nil => rfl
  | cons p ps ih =>
    rw [List.map_cons, substituteAll_cons, substituteAll_cons, h p List.mem_cons_self,
      ih fun q hq => h q (List.mem_cons_of_mem p hq)]

/-- A tree becomes one term where it stands by itself. -/
theorem substitute_eq_some_iff {p : PatternTerm} {t : Term} :
    p.substitute σ = some t ↔ p.substituteRun σ = some [t] := by
  unfold substitute
  split
  · rename_i s hs
    rw [hs]
    simp
  · rename_i hnot
    exact iff_of_false (by simp) fun h => hnot t h

/-- **Only the variables of the tree count.** -/
theorem substituteRun_congr (p : PatternTerm)
    (h : ∀ x ∈ p.variableNames, τ.find? x = σ.find? x) :
    p.substituteRun τ = p.substituteRun σ := by
  induction p using PatternTerm.inductionOn with
  | atom t => rfl
  | wildcard w =>
    rw [substituteRun, substituteRun]
    cases hname : w.name with
    | none => rfl
    | some x =>
      have hx := h x (mem_variableNames_wildcard.mpr hname)
      simp only [Option.bind_some, hx]
  | node head args ih =>
    have hargs : substituteAll τ (args.map id) = substituteAll σ args :=
      substituteAll_map fun p hp =>
        ih p hp fun x hx => h x (mem_variableNames_node.mpr ⟨p, hp, hx⟩)
    rw [List.map_id] at hargs
    rw [substituteRun, substituteRun, hargs]

/-- What a tree has become stays when more is bound. -/
theorem substituteRun_below (p : PatternTerm) (hbelow : σ.Below τ)
    (hbinds : ∀ x ∈ p.variableNames, σ.Binds x) : p.substituteRun τ = p.substituteRun σ :=
  p.substituteRun_congr fun x hx => hbelow.find?_eq (hbinds x hx)

/-! ### Canonical trees -/

/-- Two lists of trees build the same operation. -/
def BuildSame (σ : Substitution) (head : Head) (ps qs : List PatternTerm) : Prop :=
  (substituteAll σ ps).map (Term.build head) = (substituteAll σ qs).map (Term.build head)

/-- Lists that build the same behind lists that build the same. -/
theorem BuildSame.append {ps ps' qs qs' : List PatternTerm} (hp : BuildSame σ head ps ps')
    (hq : BuildSame σ head qs qs') : BuildSame σ head (ps ++ qs) (ps' ++ qs') := by
  unfold BuildSame at *
  rw [substituteAll_append, substituteAll_append]
  cases h1 : substituteAll σ ps <;> cases h2 : substituteAll σ ps' <;>
    cases h3 : substituteAll σ qs <;> cases h4 : substituteAll σ qs' <;>
    simp only [h1, h2, h3, h4, Option.map_none, Option.map_some, Option.some.injEq, reduceCtorEq,
      Option.bind_none, Option.bind_some] at hp hq ⊢
  exact Term.build_append hp hq

/-- Splicing in arguments of the same associative head makes no difference. -/
theorem buildSame_spliced (σ : Substitution) (head : Head) (p : PatternTerm) :
    BuildSame σ head (spliced head p) [p] := by
  cases p with
  | atom t => rfl
  | wildcard w => rfl
  | node inner below =>
    rw [spliced]
    split
    · rename_i hsame
      rw [Bool.and_eq_true, decide_eq_true_eq] at hsame
      obtain ⟨hassoc, rfl⟩ := hsame
      rw [BuildSame, substituteAll_singleton, substituteRun]
      cases substituteAll σ below with
      | none => rfl
      | some ts => exact congrArg some (Term.build_build hassoc ts).symm
    · rfl

/-- Splicing the arguments of nested operations builds the same. -/
theorem buildSame_flatMap_spliced (σ : Substitution) (head : Head) (ps : List PatternTerm) :
    BuildSame σ head (ps.flatMap (spliced head)) ps := by
  induction ps with
  | nil => rfl
  | cons p ps ih => exact (buildSame_spliced σ head p).append ih

/-- The order of commutative arguments makes no difference. -/
theorem buildSame_of_perm (hcomm : head.isCommutative = true) {ps qs : List PatternTerm}
    (h : ps.Perm qs) : BuildSame σ head ps qs := by
  induction h with
  | nil => rfl
  | @cons p ps qs _ ih =>
    have hone : BuildSame σ head [p] [p] := rfl
    exact hone.append ih
  | swap p q ps =>
    have hswap : BuildSame σ head ([q] ++ [p]) ([p] ++ [q]) := by
      rw [BuildSame, substituteAll_append, substituteAll_append]
      cases substituteAll σ [p] with
      | none => cases substituteAll σ [q] <;> rfl
      | some ss =>
        cases substituteAll σ [q] with
        | none => rfl
        | some ts =>
          -- Terms are sorted when the operation is built.
          refine congrArg some (Term.build_eq_of_perm hcomm ?_)
          rw [Term.splice_append, Term.splice_append]
          exact List.perm_append_comm
    have hrest : BuildSame σ head ps ps := rfl
    exact hswap.append hrest
  | trans _ _ ih ih' => exact ih.trans ih'

/-- **Canonical trees become the same terms.** -/
theorem substituteRun_build (σ : Substitution) (head : Head) (ps : List PatternTerm) :
    (build head ps).substituteRun σ = (node head ps).substituteRun σ := by
  have hsame : BuildSame σ head
      (if head.isCommutative then sortBy le (ps.flatMap (spliced head))
        else ps.flatMap (spliced head)) ps := by
    split
    · rename_i hcomm
      exact (buildSame_of_perm hcomm (sortBy_perm _ _)).trans (buildSame_flatMap_spliced σ head ps)
    · exact buildSame_flatMap_spliced σ head ps
  have hlist := congrArg (Option.map fun t : Term => [t]) hsame
  rw [Option.map_map, Option.map_map] at hlist
  exact hlist

/-- **Renaming the variables is renaming the bindings.** -/
theorem substituteRun_mapVariables {rename : String → String} (p : PatternTerm)
    (h : ∀ x ∈ p.variableNames, τ.find? (rename x) = σ.find? x) :
    (p.mapVariables rename).substituteRun τ = p.substituteRun σ := by
  induction p using PatternTerm.inductionOn with
  | atom t => rfl
  | wildcard w =>
    rw [mapVariables, substituteRun, substituteRun, Wildcard.renamed]
    cases hname : w.name with
    | none => rfl
    | some x =>
      have hx := h x (mem_variableNames_wildcard.mpr hname)
      simp only [Option.map_some, Option.bind_some, hx]
  | node head args ih =>
    rw [mapVariables, substituteRun_build, mapVariablesAll_eq, substituteRun, substituteRun]
    exact congrArg _ (substituteAll_map fun p hp =>
      ih p hp fun x hx => h x (mem_variableNames_node.mpr ⟨p, hp, hx⟩))

/-! ### Trees built anew -/

/-- The tree with all operations made canonical. -/
def canonical (p : PatternTerm) : PatternTerm := p.mapVariables id

/-- A wildcard is canonical. -/
theorem canonical_wildcard (w : Wildcard) : (wildcard w).canonical = wildcard w := by
  rw [canonical, mapVariables, Option.map_id]
  rfl

/-- The canonical form of an operation is built from those of its arguments. -/
theorem canonical_node (head : Head) (args : List PatternTerm) :
    (node head args).canonical = build head (args.map canonical) := by
  rw [canonical, mapVariables, mapVariablesAll_eq]
  rfl

/-- **Building trees anew** changes nothing in what they become. -/
theorem substituteRun_canonical (p : PatternTerm) (σ : Substitution) :
    p.canonical.substituteRun σ = p.substituteRun σ :=
  p.substituteRun_mapVariables fun _ _ => rfl

end PatternTerm

end TermNet
