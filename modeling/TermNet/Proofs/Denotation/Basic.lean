import Mathlib.Data.List.Pairwise
import TermNet.Proofs.Pattern.Alike
import TermNet.Proofs.Pattern.Leaves
import TermNet.Proofs.Pattern.Shares
import TermNet.Proofs.Pattern.Consumed

namespace TermNet

/-!
# What pattern trees denote

Under a substitution a tree stands for certain runs of arguments: a wildcard for the runs that
it may take with the binding of its variable, an operation for one term whose arguments are
the runs of its arguments, in any order if the head is commutative.  Nothing is said about how
such runs are searched for.

* `Wildcard.Takes` — the runs of wildcards, with their bindings;
* `PatternTerm.Denotes` — the runs of trees;
* `ArgsDenote`, `denotes_node` — the runs of the arguments of an operation;
* `takes_sequenceVariable_iff` — sequence variables take what their wildcards take;
* `PatternTerm.Denotes.congr`, `PatternTerm.Denotes.leaf` — only the bindings of the variables
  count, and every leaf takes some run.
-/

open CommutativePattern (runBinding)

/-! ### Wildcards -/

/-- Whether arguments below `parent` may stand in any order. -/
def unordered (parent : Option Head) : Bool := parent.any Head.isCommutative

/-- A label that takes any term instead of a symbol, if it may be skipped. -/
def Label.unrestricted : Label → Label
  | .one _ (some d) => .one none (some d)
  | label => label

/-- The label of a wildcard below `parent`.  Among commutative arguments a wildcard with a
    default takes any term. -/
def Wildcard.labelBelow (parent : Option Head) (w : Wildcard) : Label :=
  if unordered parent then (wildcardStep parent w).label.unrestricted
  else (wildcardStep parent w).label

/-- **What a wildcard below `parent` takes,** and what its variable is bound to then.  The run
    of commutative arguments is sorted. -/
structure Wildcard.Takes (parent : Option Head) (w : Wildcard) (ts : List Term) (b : Binding) :
    Prop where
  label : (w.labelBelow parent).Takes ts b
  sorted : unordered parent = true → ts.Pairwise fun s t => s.le t = true

/-- **The labels of wildcards:** sequence wildcards take runs, and so do fixed ones without a
    symbol kind below associative heads. -/
theorem Wildcard.labelBelow_cases (parent : Option Head) (w : Wildcard) :
    (∃ n, w.extent = .run n ∧
      w.labelBelow parent = .run n (parent.filter Head.isAssociative) w.default) ∨
    (∃ head, w.extent = .one none ∧ parent.filter Head.isAssociative = some head ∧
      w.labelBelow parent = .run 1 (some head) w.default) ∨
    (∃ kind, w.extent = .one kind ∧
      (kind = none → parent.filter Head.isAssociative = none) ∧
      w.labelBelow parent =
        .one (if unordered parent && w.isOptional then none else kind) w.default) := by
  obtain ⟨name, extent, default⟩ := w
  cases extent with
  | run n =>
    refine .inl ⟨n, rfl, ?_⟩
    simp [labelBelow, wildcardStep, Label.unrestricted]
  | one kind =>
    have hone : wildcardStep parent ⟨name, .one kind, default⟩ =
        ⟨.one kind default, name, name.toList, .branch []⟩ →
        labelBelow parent ⟨name, .one kind, default⟩ =
          .one (if unordered parent && (Wildcard.mk name (.one kind) default).isOptional then none
            else kind) default := by
      intro hstep
      rw [labelBelow, hstep]
      cases hunordered : unordered parent <;> cases default <;>
        simp [Label.unrestricted, isOptional]
    -- A symbol kind keeps a wildcard from taking runs, even below an associative head.
    cases hassoc : parent.filter Head.isAssociative with
    | none =>
      refine .inr (.inr ⟨kind, rfl, fun _ => rfl, hone ?_⟩)
      cases kind <;> simp [wildcardStep, hassoc]
    | some head =>
      cases kind with
      | none =>
        refine .inr (.inl ⟨head, rfl, rfl, ?_⟩)
        simp [labelBelow, wildcardStep, Label.unrestricted, hassoc]
      | some kind =>
        refine .inr (.inr ⟨some kind, rfl, by simp, hone ?_⟩)
        simp [wildcardStep]

/-- The label of a wildcard for a run. -/
theorem Wildcard.labelBelow_of_run {parent : Option Head} {w : Wildcard} {n : Nat}
    (h : w.extent = .run n) :
    w.labelBelow parent = .run n (parent.filter Head.isAssociative) w.default := by
  rcases w.labelBelow_cases parent with ⟨m, hrun, hlabel⟩ | ⟨head, hone, -⟩ | ⟨kind, hone, -⟩
  · obtain rfl := Extent.run.inj (h.symm.trans hrun)
    exact hlabel
  · exact absurd (h.symm.trans hone) (by simp)
  · exact absurd (h.symm.trans hone) (by simp)

/-- The label of a wildcard for one argument of an associative operation, which takes a run. -/
theorem Wildcard.labelBelow_of_wrapped {parent : Option Head} {w : Wildcard} {head : Head}
    (h : w.extent = .one none) (hassoc : parent.filter Head.isAssociative = some head) :
    w.labelBelow parent = .run 1 (some head) w.default := by
  rcases w.labelBelow_cases parent with
    ⟨n, hrun, -⟩ | ⟨inner, -, hinner, hlabel⟩ | ⟨kind, hone, hkind, -⟩
  · exact absurd (h.symm.trans hrun) (by simp)
  · rw [hlabel, hinner.symm.trans hassoc]
  · have hnone := hkind (Extent.one.inj (h.symm.trans hone)).symm
    exact absurd (hnone.symm.trans hassoc) (by simp)

/-- The label of a wildcard for one argument; an optional one among commutative arguments drops its
    kind. -/
theorem Wildcard.labelBelow_of_one {parent : Option Head} {w : Wildcard} {kind : Option SymbolKind}
    (h : w.extent = .one kind) (hassoc : kind = none → parent.filter Head.isAssociative = none) :
    w.labelBelow parent =
      .one (if unordered parent && w.isOptional then none else kind) w.default := by
  rcases w.labelBelow_cases parent with
    ⟨n, hrun, -⟩ | ⟨inner, hone, hinner, -⟩ | ⟨other, hone, -, hlabel⟩
  · exact absurd (h.symm.trans hrun) (by simp)
  · have hnone := hassoc (Extent.one.inj (h.symm.trans hone))
    exact absurd (hnone.symm.trans hinner) (by simp)
  · obtain rfl := Extent.one.inj (h.symm.trans hone)
    exact hlabel

/-! ### Commutative arguments -/

variable {head : Head} {w : Wildcard} {var : SequenceVariable} {ts : List Term} {b : Binding}

/-- The arguments of a commutative operation are unordered. -/
theorem unordered_some (hcomm : head.isCommutative = true) : unordered (some head) = true := hcomm

/-- What a sequence variable takes that may take a run. -/
theorem admits_run_iff {name : Option String} {n : Nat} {d : Option Term} {wrap : Bool}
    (hwrap : wrap = head.isAssociative) :
    ((SequenceVariable.mk name 1 n d false wrap).admits ts.length = true ∧
        b = runBinding head (SequenceVariable.mk name 1 n d false wrap) ts) ↔
      (Label.run n ((some head).filter Head.isAssociative) d).Takes ts b := by
  rw [Label.takes_run_iff]
  -- A run that is not empty is bound wrapped below an associative head, and as it is elsewhere.
  have hbinding : ∀ t rest, runBinding head ⟨name, 1, n, d, false, wrap⟩ (t :: rest) =
      .ofRun (t :: rest) ((some head).filter Head.isAssociative) := by
    intro t rest
    rw [Option.filter_some, hwrap]
    cases head.isAssociative <;> simp [runBinding, Binding.ofRun]
  have hnone : Binding.ofRun [] ((some head).filter Head.isAssociative) = .sequence [] := by
    rw [Option.filter_some]
    cases head.isAssociative <;> rfl
  cases ts with
  | nil =>
    rw [hnone]
    cases d <;> simp [SequenceVariable.admits, runBinding]
  | cons t rest =>
    rw [hbinding]
    cases d <;> simp [SequenceVariable.admits]

/-- **A sequence variable takes what its wildcard takes.** -/
theorem takes_sequenceVariable_iff (hcomm : head.isCommutative = true)
    (hvar : sequenceVariable? head w = some var) :
    (ts.Pairwise (fun s t => s.le t = true) ∧ var.admits ts.length = true ∧
        b = runBinding head var ts) ↔ w.Takes (some head) ts b := by
  have hlabel : (var.admits ts.length = true ∧ b = runBinding head var ts) ↔
      (w.labelBelow (some head)).Takes ts b := by
    obtain ⟨name, extent, d⟩ := w
    rcases Wildcard.labelBelow_cases (some head) ⟨name, extent, d⟩ with
      ⟨n, rfl, hlabel⟩ | ⟨inner, rfl, hassoc, hlabel⟩ | ⟨kind, rfl, hkind, hlabel⟩
    · rw [hlabel]
      obtain rfl := Option.some.inj hvar
      exact admits_run_iff rfl
    · obtain ⟨heq, hassoc'⟩ := Option.filter_eq_some_iff.mp hassoc
      obtain rfl := Option.some.inj heq
      have hvar' : SequenceVariable.mk name 1 1 d false true = var := by
        simpa [sequenceVariable?, hassoc'] using hvar
      rw [hlabel, ← hvar', ← hassoc]
      exact admits_run_iff hassoc'.symm
    -- One argument is a sequence variable for its default only.
    · have hnot : (head.isAssociative && kind.isNone) = false := by
        cases kind with
        | none => simpa using hkind rfl
        | some kind => simp
      cases d with
      | none => simp [sequenceVariable?, hnot, Wildcard.isOptional] at hvar
      | some d =>
        have hvar' : SequenceVariable.mk name 1 1 (some d) true false = var := by
          simpa [sequenceVariable?, hnot, Wildcard.isOptional] using hvar
        rw [hlabel, ← hvar', unordered_some hcomm, Wildcard.isOptional, Option.isSome_some,
          Bool.and_self, if_pos rfl, Label.takes_one_iff]
        match ts with
        | [] => simp [SequenceVariable.admits, runBinding]
        | [t] => simp [SequenceVariable.admits, runBinding, Term.rewrap]
        | _ :: _ :: _ => simp [SequenceVariable.admits]
  rw [hlabel]
  exact ⟨fun h => ⟨h.2, fun _ => h.1⟩, fun h => ⟨h.sorted (unordered_some hcomm), h.label⟩⟩

/-- The label of an operand asks for one argument. -/
theorem labelBelow_operand (hvar : sequenceVariable? head w = none) :
    ∃ kind, w.labelBelow (some head) = .one kind none ∧ w.labelBelow none = .one kind none := by
  have hparts : ∃ kind, w.extent = .one kind ∧ w.default = none ∧
      (head.isAssociative && kind.isNone) = false := by
    unfold sequenceVariable? at hvar
    cases hextent : w.extent with
    | run n => simp [hextent] at hvar
    | one kind =>
      simp only [hextent] at hvar
      cases hassoc : head.isAssociative && kind.isNone with
      | true => simp [hassoc] at hvar
      -- Neither a run nor optional, and not wrapped: one argument is left.
      | false =>
        refine ⟨kind, rfl, ?_, hassoc⟩
        rw [hassoc, if_neg Bool.false_ne_true, Wildcard.isOptional] at hvar
        cases hdefault : w.default with
        | none => rfl
        | some d => simp [hdefault] at hvar
  obtain ⟨kind, hextent, hdefault, hassoc⟩ := hparts
  have hlabel : ∀ parent : Option Head, (kind = none → parent.filter Head.isAssociative = none) →
      w.labelBelow parent = .one kind none := by
    intro parent hparent
    rw [Wildcard.labelBelow_of_one hextent hparent, Wildcard.isOptional, hdefault,
      Option.isSome_none, Bool.and_false, if_neg Bool.false_ne_true]
  refine ⟨kind, hlabel _ fun hkind => ?_, hlabel none fun _ => rfl⟩
  simpa [Option.filter_some, hkind] using hassoc

/-- **An operand takes one argument,** as it does by itself. -/
theorem takes_operand_iff (hvar : sequenceVariable? head w = none) :
    w.Takes (some head) ts b ↔ w.Takes none ts b := by
  obtain ⟨kind, hhead, hnone⟩ := labelBelow_operand hvar
  constructor
  · intro h
    refine ⟨?_, by simp [unordered]⟩
    rw [hnone, ← hhead]
    exact h.label
  · intro h
    have hlabel := h.label
    rw [hnone] at hlabel
    obtain ⟨t, rfl, -⟩ := hlabel.exists_term
    exact ⟨hhead ▸ hlabel, fun _ => List.pairwise_singleton _ _⟩

/-! ### Trees -/

/-- Occurrences of one sequence variable, which are counted together. -/
def CountedTogether (head : Head) (p q : PatternTerm) : Prop :=
  head.isCommutative = true ∧ ∃ var, var.name.isSome = true ∧
    p.sequenceVariable? head = some var ∧ q.sequenceVariable? head = some var

/-- What is counted together are wildcards of one name. -/
theorem CountedTogether.exists_wildcards {p q : PatternTerm} (h : CountedTogether head p q) :
    ∃ v w, p = .wildcard v ∧ q = .wildcard w ∧ v.name = w.name := by
  obtain ⟨-, var, -, hp, hq⟩ := h
  obtain ⟨v, rfl, hv⟩ := PatternTerm.sequenceVariable?_eq_some hp
  obtain ⟨w, rfl, hw⟩ := PatternTerm.sequenceVariable?_eq_some hq
  exact ⟨v, w, rfl, rfl, (sequenceVariable?_name hv).symm.trans (sequenceVariable?_name hw)⟩

/-- Trees that are counted together take the same. -/
def Together (head : Head) (runs : List (PatternTerm × List Term)) : Prop :=
  runs.Pairwise fun r r' => CountedTogether head r.1 r'.1 → r.2 = r'.2

/-- It does not matter which of two runs comes first. -/
theorem together_iff {runs : List (PatternTerm × List Term)} :
    Together head runs ↔
      ∀ r ∈ runs, ∀ r' ∈ runs, CountedTogether head r.1 r'.1 → r.2 = r'.2 := by
  constructor
  · intro h
    have hsymm : Std.Symm fun r r' : PatternTerm × List Term =>
        CountedTogether head r.1 r'.1 → r.2 = r'.2 := by
      refine ⟨fun r r' hsame => ?_⟩
      rintro ⟨hcomm, var, hname, hr', hr⟩
      exact (hsame ⟨hcomm, var, hname, hr, hr'⟩).symm
    intro r hr r' hr'
    exact List.Pairwise.forall_of_forall (fun _ _ _ => rfl) h hr hr'
  · intro h
    have hall : runs.Pairwise fun _ _ => True := List.pairwise_of_forall fun _ _ => trivial
    exact hall.imp_of_mem fun hr hr' _ => h _ hr _ hr'

mutual

/-- **What a tree below `parent` denotes** under a substitution. -/
def PatternTerm.Denotes (σ : Substitution) (parent : Option Head) :
    PatternTerm → List Term → Prop
  | .atom t => fun ts => ts = [t]
  | .wildcard w => fun ts => ∃ b, w.Takes parent ts b ∧ ∀ x, w.name = some x → σ.find? x = some b
  | .node head args => fun ts => ∃ runs as, DenotesAll σ head args runs ∧ Together head runs ∧
      head.Reorders (runs.flatMap Prod.snd) as ∧ ts = [.node head as]
termination_by structural p => p

/-- The arguments of an operation with the runs that they denote. -/
def DenotesAll (σ : Substitution) (head : Head) :
    List PatternTerm → List (PatternTerm × List Term) → Prop
  | [] => fun runs => runs = []
  | p :: ps => fun runs => ∃ run rest, runs = (p, run) :: rest ∧
      PatternTerm.Denotes σ (some head) p run ∧ DenotesAll σ head ps rest
termination_by structural ps => ps

end

variable {σ τ : Substitution} {parent : Option Head} {args : List PatternTerm}
  {as : List Term} {runs : List (PatternTerm × List Term)}

/-- Lists of trees denote runs of arguments one by one. -/
theorem denotesAll_iff :
    DenotesAll σ head args runs ↔
      runs.map Prod.fst = args ∧ ∀ r ∈ runs, r.1.Denotes σ (some head) r.2 := by
  induction args generalizing runs with
  | nil =>
    rw [DenotesAll, List.map_eq_nil_iff]
    exact ⟨fun h => ⟨h, by simp [h]⟩, And.left⟩
  | cons p ps ih =>
    rw [DenotesAll]
    constructor
    · rintro ⟨run, rest, rfl, hp, hps⟩
      obtain ⟨hrest, hall⟩ := ih.mp hps
      exact ⟨by rw [List.map_cons, hrest], List.forall_mem_cons.mpr ⟨hp, hall⟩⟩
    · rintro ⟨hmap, hall⟩
      obtain ⟨⟨q, run⟩, rest, rfl, rfl, hrest⟩ := List.map_eq_cons_iff.mp hmap
      obtain ⟨hp, hall⟩ := List.forall_mem_cons.mp hall
      exact ⟨run, rest, rfl, hp, ih.mpr ⟨hrest, hall⟩⟩

/-- The arguments `args` of an operation denote `as`, each of them its run of `runs`. -/
structure ArgsDenote (σ : Substitution) (head : Head) (args : List PatternTerm) (as : List Term)
    (runs : List (PatternTerm × List Term)) : Prop where
  args : runs.map Prod.fst = args
  denotes : ∀ r ∈ runs, r.1.Denotes σ (some head) r.2
  together : Together head runs
  reorders : head.Reorders (runs.flatMap Prod.snd) as

/-- An atom denotes itself. -/
theorem denotes_atom {t : Term} : (PatternTerm.atom t).Denotes σ parent ts ↔ ts = [t] := Iff.rfl

/-- A wildcard denotes what it takes, if its name is bound to it. -/
theorem denotes_wildcard : (PatternTerm.wildcard w).Denotes σ parent ts ↔
    ∃ b, w.Takes parent ts b ∧ ∀ x, w.name = some x → σ.find? x = some b := Iff.rfl

/-- **An operation denotes one term,** whose arguments are those that its arguments denote. -/
theorem denotes_node : (PatternTerm.node head args).Denotes σ parent ts ↔
    ∃ as, ts = [.node head as] ∧ ∃ runs, ArgsDenote σ head args as runs := by
  rw [PatternTerm.Denotes]
  simp only [denotesAll_iff]
  constructor
  · rintro ⟨runs, as, ⟨hargs, hdenotes⟩, htogether, hreorders, rfl⟩
    exact ⟨as, rfl, runs, hargs, hdenotes, htogether, hreorders⟩
  · rintro ⟨as, rfl, runs, h⟩
    exact ⟨runs, as, ⟨h.args, h.denotes⟩, h.together, h.reorders, rfl⟩

/-- An operation denotes the same wherever it stands. -/
theorem denotes_node_iff {outer : Option Head} :
    (PatternTerm.node head args).Denotes σ parent ts ↔
      (PatternTerm.node head args).Denotes σ outer ts := by
  rw [denotes_node, denotes_node]

/-- **An operand denotes what it denotes by itself,** which is one term. -/
theorem denotes_operand_iff {p : PatternTerm} (hvar : p.sequenceVariable? head = none) :
    p.Denotes σ (some head) ts ↔ p.Denotes σ none ts := by
  cases p with
  | atom t => exact Iff.rfl
  | wildcard w => exact exists_congr fun b => and_congr_left fun _ => takes_operand_iff hvar
  | node inner args => exact denotes_node_iff

/-- An operand denotes one term. -/
theorem exists_term_of_operand {p : PatternTerm} (hvar : p.sequenceVariable? head = none)
    (h : p.Denotes σ (some head) ts) : ∃ t, ts = [t] := by
  cases p with
  | atom t => exact ⟨t, h⟩
  | wildcard w =>
    obtain ⟨b, hb, -⟩ := h
    obtain ⟨kind, hlabel, -⟩ := labelBelow_operand hvar
    have htakes := hb.label
    rw [hlabel] at htakes
    obtain ⟨t, ht, -⟩ := htakes.exists_term
    exact ⟨t, ht⟩
  | node inner args =>
    obtain ⟨as, hts, -⟩ := denotes_node.mp h
    exact ⟨_, hts⟩

/-- **Only the bindings of the variables count.** -/
theorem PatternTerm.Denotes.congr {p : PatternTerm} (h : p.Denotes σ parent ts)
    (hfind : ∀ x ∈ p.variableNames, τ.find? x = σ.find? x) : p.Denotes τ parent ts := by
  induction p using PatternTerm.inductionOn generalizing parent ts with
  | atom t => exact h
  | wildcard w =>
    obtain ⟨b, hb, hname⟩ := h
    refine ⟨b, hb, fun x hx => ?_⟩
    rw [hfind x (PatternTerm.mem_variableNames_wildcard.mpr hx), hname x hx]
  | node head args ih =>
    obtain ⟨as, rfl, runs, hruns⟩ := denotes_node.mp h
    refine denotes_node.mpr ⟨as, rfl, runs, { hruns with denotes := fun r hr => ?_ }⟩
    have hp : r.1 ∈ args := hruns.args ▸ List.mem_map_of_mem hr
    exact ih r.1 hp (hruns.denotes r hr) fun x hx =>
      hfind x (PatternTerm.mem_variableNames_node.mpr ⟨r.1, hp, hx⟩)

/-- Every leaf takes some run, with the binding of its variable. -/
theorem PatternTerm.Denotes.leaf {p : PatternTerm} (h : p.Denotes σ parent ts)
    {leaf : Option Head × PatternTerm} (hleaf : leaf ∈ p.leaves parent) :
    ∃ run, leaf.2.Denotes σ leaf.1 run := by
  induction p using PatternTerm.inductionOn generalizing parent ts with
  | atom t =>
    rw [List.mem_singleton.mp hleaf]
    exact ⟨ts, h⟩
  | wildcard w =>
    rw [List.mem_singleton.mp hleaf]
    exact ⟨ts, h⟩
  | node head args ih =>
    obtain ⟨as, rfl, runs, hruns⟩ := denotes_node.mp h
    obtain ⟨p, hp, hleaf⟩ := PatternTerm.mem_leaves_node.mp hleaf
    rw [← hruns.args] at hp
    obtain ⟨r, hr, rfl⟩ := List.mem_map.mp hp
    exact ih r.1 (hruns.args ▸ hp) (hruns.denotes r hr) hleaf

/-- All variables of a tree that denotes something are bound. -/
theorem PatternTerm.Denotes.binds {p : PatternTerm} (h : p.Denotes σ parent ts) :
    ∀ x ∈ p.variableNames, σ.Binds x := by
  intro x hx
  obtain ⟨w, hw, hname⟩ := PatternTerm.mem_variableNames.mp hx
  obtain ⟨above, habove⟩ := PatternTerm.mem_wildcards_iff.mp hw
  obtain ⟨run, b, -, hb⟩ := h.leaf habove
  exact ⟨b, hb x hname⟩

end TermNet
