import Mathlib.Data.List.Perm.Basic
import TermNet.Proofs.Pattern.Built
import TermNet.Proofs.Term.Canonical

namespace TermNet

/-!
# Trees that differ in names and in the order of commutative arguments

Such trees stand for the same pattern: the order of commutative arguments is a matter of
how operations are written down, and names tell variables apart and nothing else.

* `Head.Reorders` — another order of arguments, if the head does not mind;
* `Alike R` — one tree becomes the other by reordering commutative arguments and replacing
  names by related ones;
* `Alike.flip`, `Alike.trans` — the way back, and one change after another;
* `Alike.mapVariables` — building trees anew keeps them alike;
* `PatternTerm.Settled` — alike operands of one operation are equal.
-/

/-! ### Orders of arguments -/

/-- The arguments in another order, if the head is commutative. -/
def Head.Reorders {α : Type} (head : Head) (args others : List α) : Prop :=
  if head.isCommutative then args.Perm others else args = others

namespace Head.Reorders

variable {α β : Type} {head : Head} {as bs cs : List α}

/-- Arguments of a commutative head may be in any order. -/
theorem iff_perm (h : head.isCommutative = true) : head.Reorders as bs ↔ as.Perm bs := by
  rw [Reorders, if_pos h]

/-- Arguments of any other head stay where they are. -/
theorem iff_eq (h : head.isCommutative = false) : head.Reorders as bs ↔ as = bs := by
  rw [Reorders, if_neg (Bool.eq_false_iff.mp h)]

/-- Another order has the same arguments. -/
theorem perm (h : head.Reorders as bs) : as.Perm bs := by
  cases hcomm : head.isCommutative with
  | true => exact (iff_perm hcomm).mp h
  | false => exact .of_eq ((iff_eq hcomm).mp h)

/-- Arguments in the order in which they are. -/
protected theorem refl (head : Head) (as : List α) : head.Reorders as as := by
  unfold Reorders
  split
  · exact .refl as
  · rfl

/-- The way back to the first order. -/
protected theorem symm (h : head.Reorders as bs) : head.Reorders bs as := by
  cases hcomm : head.isCommutative with
  | true => exact (iff_perm hcomm).mpr ((iff_perm hcomm).mp h).symm
  | false => exact (iff_eq hcomm).mpr ((iff_eq hcomm).mp h).symm

/-- One order after another. -/
protected theorem trans (h : head.Reorders as bs) (hmore : head.Reorders bs cs) :
    head.Reorders as cs := by
  cases hcomm : head.isCommutative with
  | true => exact (iff_perm hcomm).mpr (((iff_perm hcomm).mp h).trans ((iff_perm hcomm).mp hmore))
  | false => exact (iff_eq hcomm).mpr (((iff_eq hcomm).mp h).trans ((iff_eq hcomm).mp hmore))

/-- Two lists of arguments, each in another order. -/
protected theorem append {ds : List α} (h : head.Reorders as bs) (hmore : head.Reorders cs ds) :
    head.Reorders (as ++ cs) (bs ++ ds) := by
  cases hcomm : head.isCommutative with
  | true => exact (iff_perm hcomm).mpr (((iff_perm hcomm).mp h).append ((iff_perm hcomm).mp hmore))
  | false => exact (iff_eq hcomm).mpr (by rw [(iff_eq hcomm).mp h, (iff_eq hcomm).mp hmore])

/-- What each argument contributes moves with it. -/
protected theorem flatMap (h : head.Reorders as bs) (f : α → List β) :
    head.Reorders (as.flatMap f) (bs.flatMap f) := by
  cases hcomm : head.isCommutative with
  | true => exact (iff_perm hcomm).mpr (((iff_perm hcomm).mp h).flatMap_right f)
  | false => exact (iff_eq hcomm).mpr (by rw [(iff_eq hcomm).mp h])

/-- What is made of each argument moves with it. -/
protected theorem map (h : head.Reorders as bs) (f : α → β) :
    head.Reorders (as.map f) (bs.map f) := by
  rw [List.map_eq_flatMap, List.map_eq_flatMap]
  exact h.flatMap _

/-- Each argument may contribute something in another order. -/
protected theorem flatMap_congr {f g : β → List α} {xs : List β}
    (h : ∀ x ∈ xs, head.Reorders (f x) (g x)) : head.Reorders (xs.flatMap f) (xs.flatMap g) := by
  induction xs with
  | nil => exact .refl head []
  | cons x xs ih =>
    exact (h x List.mem_cons_self).append (ih fun y hy => h y (List.mem_cons_of_mem x hy))

/-- Arguments are put in order where the head does not mind. -/
protected theorem arrange (head : Head) (ts : List Term) :
    head.Reorders ts (Term.arrange head ts) := by
  cases hcomm : head.isCommutative with
  | true => exact (iff_perm hcomm).mpr (Term.arrange_perm head ts).symm
  | false => exact (iff_eq hcomm).mpr (Term.arrange_of_not_commutative hcomm ts).symm

/-- Reordering one of two lists whose elements correspond to one another reorders the other. -/
theorem exists_forall₂ {R : β → α → Prop} {xs : List β} (hxs : List.Forall₂ R xs as)
    (h : head.Reorders as bs) : ∃ ys, head.Reorders xs ys ∧ List.Forall₂ R ys bs := by
  cases hcomm : head.isCommutative with
  | true =>
    have hcomp : Relation.Comp (List.Forall₂ R) List.Perm xs bs :=
      ⟨as, hxs, (iff_perm hcomm).mp h⟩
    rw [List.forall₂_comp_perm_eq_perm_comp_forall₂] at hcomp
    obtain ⟨ys, hperm, hys⟩ := hcomp
    exact ⟨ys, (iff_perm hcomm).mpr hperm, hys⟩
  | false =>
    obtain rfl := (iff_eq hcomm).mp h
    exact ⟨xs, .refl head xs, hxs⟩

end Head.Reorders

/-! ### Trees -/

/-- **The trees differ in nothing** but the order of commutative arguments and the names of
    variables, which are related. -/
inductive Alike (R : String → String → Prop) : PatternTerm → PatternTerm → Prop
  | atom (t : Term) : Alike R (.atom t) (.atom t)
  | wildcard {w : Wildcard} {name : Option String} (h : Option.Rel R w.name name) :
    Alike R (.wildcard w) (.wildcard (w.renamed name))
  | node {head : Head} {args middle others : List PatternTerm}
    (hreorder : head.Reorders args middle) (hargs : List.Forall₂ (Alike R) middle others) :
    Alike R (.node head args) (.node head others)

/-- The arguments differ in nothing but their order, if the head is commutative, and in what
    makes no difference between trees. -/
def ArgsAlike (R : String → String → Prop) (head : Head) (args others : List PatternTerm) : Prop :=
  ∃ middle, head.Reorders args middle ∧ List.Forall₂ (Alike R) middle others

variable {R S : String → String → Prop} {p q r : PatternTerm} {head : Head}
variable {args others : List PatternTerm}

/-- Only the same atom is like an atom. -/
theorem alike_atom {t : Term} : Alike R (.atom t) q ↔ q = .atom t := by
  constructor
  · rintro ⟨⟩
    rfl
  · rintro rfl
    exact .atom t

/-- Like a wildcard is one that differs in its name at most. -/
theorem alike_wildcard {w : Wildcard} :
    Alike R (.wildcard w) q ↔
      ∃ name, Option.Rel R w.name name ∧ q = .wildcard (w.renamed name) := by
  constructor
  · rintro ⟨⟩
    exact ⟨_, ‹_›, rfl⟩
  · rintro ⟨name, h, rfl⟩
    exact .wildcard h

/-- Like an operation is one with the same head, whose arguments are alike up to their order. -/
theorem alike_node :
    Alike R (.node head args) q ↔
      ∃ others, q = .node head others ∧ ArgsAlike R head args others := by
  constructor
  · rintro ⟨⟩
    exact ⟨_, rfl, _, ‹_›, ‹_›⟩
  · rintro ⟨others, rfl, middle, hreorder, hargs⟩
    exact .node hreorder hargs

/-- For each argument there is one that is like it. -/
theorem ArgsAlike.exists_right (h : ArgsAlike R head args others) (hp : p ∈ args) :
    ∃ q ∈ others, Alike R p q := by
  obtain ⟨middle, hreorder, hargs⟩ := h
  exact Bipartite.exists_row_of_mem hargs.flip (hreorder.perm.mem_iff.mp hp)

/-- Arguments stay alike where an implication holds for all of them. -/
theorem ArgsAlike.imp (h : ArgsAlike R head args others)
    (himp : ∀ p ∈ args, ∀ q, Alike R p q → Alike S p q) : ArgsAlike S head args others := by
  obtain ⟨middle, hreorder, hargs⟩ := h
  have hboth := (List.forall₂_and_left middle others).mpr
    ⟨fun p hp => himp p (hreorder.perm.mem_iff.mpr hp), hargs⟩
  exact ⟨middle, hreorder, hboth.imp fun p q ⟨hpq, h⟩ => hpq q h⟩

/-! ### Names that wildcards may lack -/

section Names

variable {a b c : Option String}

/-- Names that are related by being equal are equal, missing ones included. -/
theorem eq_of_rel (h : Option.Rel Eq a b) : a = b := by
  cases h with
  | some h => exact congrArg some h
  | none => rfl

/-- The way back between names that may be missing. -/
theorem rel_flip (h : Option.Rel R a b) : Option.Rel (fun y x => R x y) b a := by
  cases h with
  | some h => exact .some h
  | none => exact .none

/-- One change of names after another. -/
theorem rel_comp (h : Option.Rel R a b) (hmore : Option.Rel S b c) :
    Option.Rel (Relation.Comp R S) a c := by
  cases h with
  | some h =>
    cases hmore with
    | some hmore => exact .some ⟨_, h, hmore⟩
  | none =>
    cases hmore with
    | none => exact .none

/-- Changing names on both sides. -/
theorem rel_map {f g : String → String} (h : Option.Rel R a b)
    (hnames : ∀ x, a = some x → ∀ y, R x y → S (f x) (g y)) :
    Option.Rel S (a.map f) (b.map g) := by
  cases h with
  | some h => exact .some (hnames _ rfl _ h)
  | none => exact .none

end Names

/-! ### Back and forth -/

/-- A tree is like itself, with the same names. -/
theorem Alike.refl (p : PatternTerm) : Alike Eq p p := by
  induction p using PatternTerm.inductionOn with
  | atom t => exact .atom t
  | wildcard w =>
    refine alike_wildcard.mpr ⟨w.name, ?_, rfl⟩
    cases w.name with
    | none => exact .none
    | some x => exact .some rfl
  | node head args ih => exact .node (.refl head args) (List.forall₂_same.mpr ih)

/-- The way back. -/
theorem Alike.flip (h : Alike R p q) : Alike (fun y x => R x y) q p := by
  induction p using PatternTerm.inductionOn generalizing q with
  | atom t =>
    obtain rfl := alike_atom.mp h
    exact .atom t
  | wildcard w =>
    obtain ⟨name, hname, rfl⟩ := alike_wildcard.mp h
    exact alike_wildcard.mpr ⟨w.name, rel_flip hname, rfl⟩
  | node head args ih =>
    obtain ⟨others, rfl, middle, hreorder, hargs⟩ := alike_node.mp h
    have hboth := (List.forall₂_and_left middle others).mpr
      ⟨fun p hp => @ih p (hreorder.perm.mem_iff.mpr hp), hargs⟩
    have hback := hboth.flip.imp fun q p ⟨hpq, h⟩ => hpq h
    obtain ⟨more, hmore, hback⟩ := Head.Reorders.exists_forall₂ hback hreorder.symm
    exact alike_node.mpr ⟨args, rfl, more, hmore, hback⟩

/-- One change after another. -/
theorem Alike.trans (h : Alike R p q) (hmore : Alike S q r) :
    Alike (Relation.Comp R S) p r := by
  induction p using PatternTerm.inductionOn generalizing q r with
  | atom t =>
    obtain rfl := alike_atom.mp h
    obtain rfl := alike_atom.mp hmore
    exact .atom t
  | wildcard w =>
    obtain ⟨name, hname, rfl⟩ := alike_wildcard.mp h
    obtain ⟨newest, hnewest, rfl⟩ := alike_wildcard.mp hmore
    exact alike_wildcard.mpr ⟨newest, rel_comp hname hnewest, rfl⟩
  | node head args ih =>
    obtain ⟨others, rfl, middle, hreorder, hargs⟩ := alike_node.mp h
    obtain ⟨newest, rfl, between, hbetween, hnewest⟩ := alike_node.mp hmore
    -- Both orders are put in front: first all reordering, then both changes of each argument.
    obtain ⟨first, hfirst, hargs⟩ := Head.Reorders.exists_forall₂ hargs hbetween
    have hboth := (List.forall₂_and_left first between).mpr
      ⟨fun p hp => @ih p ((hreorder.trans hfirst).perm.mem_iff.mpr hp), hargs⟩
    refine alike_node.mpr ⟨newest, rfl, first, hreorder.trans hfirst, ?_⟩
    clear h hmore hreorder hbetween hfirst hargs
    induction hnewest generalizing first with
    | nil =>
      obtain rfl := List.forall₂_nil_right_iff.mp hboth
      exact .nil
    | cons hq _ ihs =>
      obtain ⟨p, rest, hp, hrest, rfl⟩ := List.forall₂_cons_right_iff.mp hboth
      exact .cons (hp.1 hp.2 hq) (ihs rest hrest)

/-- Names may be related by less, as far as they occur. -/
theorem Alike.imp (h : Alike R p q)
    (himp : ∀ x ∈ p.variableNames, ∀ y, R x y → S x y) : Alike S p q := by
  induction p using PatternTerm.inductionOn generalizing q with
  | atom t => exact alike_atom.mpr (alike_atom.mp h)
  | wildcard w =>
    obtain ⟨name, hname, rfl⟩ := alike_wildcard.mp h
    have hrel := rel_map (f := id) (g := id) hname fun x hx =>
      himp x (PatternTerm.mem_variableNames_wildcard.mpr hx)
    rw [Option.map_id] at hrel
    exact .wildcard hrel
  | node head args ih =>
    obtain ⟨others, rfl, hargs⟩ := alike_node.mp h
    exact alike_node.mpr ⟨others, rfl, hargs.imp fun p hp q hpq => ih p hp hpq fun x hx =>
      himp x (PatternTerm.mem_variableNames_node.mpr ⟨p, hp, hx⟩)⟩

/-- The names of alike trees are related. -/
theorem Alike.exists_name (h : Alike R p q) {x : String} (hx : x ∈ p.variableNames) :
    ∃ y ∈ q.variableNames, R x y := by
  induction p using PatternTerm.inductionOn generalizing q with
  | atom t => simp [PatternTerm.variableNames, PatternTerm.wildcards] at hx
  | wildcard w =>
    obtain ⟨name, hname, rfl⟩ := alike_wildcard.mp h
    rw [PatternTerm.mem_variableNames_wildcard.mp hx] at hname
    cases hname with
    | some hxy => exact ⟨_, PatternTerm.mem_variableNames_wildcard.mpr rfl, hxy⟩
  | node head args ih =>
    obtain ⟨others, rfl, hargs⟩ := alike_node.mp h
    obtain ⟨p, hp, hx⟩ := PatternTerm.mem_variableNames_node.mp hx
    obtain ⟨q, hq, hpq⟩ := hargs.exists_right hp
    obtain ⟨y, hy, hxy⟩ := ih p hp hpq hx
    exact ⟨y, PatternTerm.mem_variableNames_node.mpr ⟨q, hq, hy⟩, hxy⟩

/-! ### Building -/

/-- Two lists of arguments that are alike, one after the other. -/
theorem ArgsAlike.append {more rest : List PatternTerm} (h : ArgsAlike R head args others)
    (hmore : ArgsAlike R head more rest) : ArgsAlike R head (args ++ more) (others ++ rest) := by
  obtain ⟨middle, hreorder, hargs⟩ := h
  obtain ⟨between, hbetween, hrest⟩ := hmore
  exact ⟨middle ++ between, hreorder.append hbetween, List.rel_append hargs hrest⟩

/-- Alike arguments contribute alike arguments. -/
theorem Alike.spliced (head : Head) (h : Alike R p q) :
    ArgsAlike R head (p.spliced head) (q.spliced head) := by
  have hself : ∀ {p q}, Alike R p q → ArgsAlike R head [p] [q] := fun h =>
    ⟨_, .refl head _, .cons h .nil⟩
  cases h with
  | atom t => exact hself (.atom t)
  | wildcard hname => exact hself (.wildcard hname)
  | @node inner args middle others hreorder hargs =>
    rw [PatternTerm.spliced, PatternTerm.spliced]
    by_cases hsame : inner = head
    · subst hsame
      split
      · exact ⟨middle, hreorder, hargs⟩
      · exact hself (.node hreorder hargs)
    · simp only [hsame, decide_false, Bool.and_false]
      exact hself (.node hreorder hargs)

/-- Arguments are put in order where the head does not mind. -/
theorem reorders_arranged (head : Head) (ps : List PatternTerm) :
    head.Reorders ps (if head.isCommutative then sortBy PatternTerm.le ps else ps) := by
  cases hcomm : head.isCommutative with
  | true => exact (Head.Reorders.iff_perm hcomm).mpr (sortBy_perm _ ps).symm
  | false => exact .refl head ps

/-- **Alike arguments build alike operations.** -/
theorem ArgsAlike.build (h : ArgsAlike R head args others) :
    Alike R (.build head args) (.build head others) := by
  obtain ⟨middle, hreorder, hargs⟩ := h
  have hspliced : ArgsAlike R head (middle.flatMap (PatternTerm.spliced head))
      (others.flatMap (PatternTerm.spliced head)) := by
    clear hreorder
    induction hargs with
    | nil => exact ⟨[], .refl head [], .nil⟩
    | cons hpq _ ih => exact (hpq.spliced head).append ih
  obtain ⟨between, hbetween, hothers⟩ := hspliced
  -- a commutative head sorts the arguments on both sides, which is one more reordering
  obtain ⟨last, hlast, hothers⟩ := Head.Reorders.exists_forall₂ hothers (reorders_arranged head _)
  have hargs := (reorders_arranged head (args.flatMap (PatternTerm.spliced head))).symm
  exact .node (((hargs.trans (hreorder.flatMap _)).trans hbetween).trans hlast) hothers

/-- **Renaming variables and building trees anew** keeps them alike. -/
theorem Alike.mapVariables {f g : String → String} (h : Alike R p q)
    (hnames : ∀ x ∈ p.variableNames, ∀ y, R x y → S (f x) (g y)) :
    Alike S (p.mapVariables f) (q.mapVariables g) := by
  induction p using PatternTerm.inductionOn generalizing q with
  | atom t =>
    obtain rfl := alike_atom.mp h
    exact .atom t
  | wildcard w =>
    obtain ⟨name, hname, rfl⟩ := alike_wildcard.mp h
    exact alike_wildcard.mpr ⟨name.map g, rel_map hname fun x hx =>
      hnames x (PatternTerm.mem_variableNames_wildcard.mpr hx), rfl⟩
  | node head args ih =>
    obtain ⟨others, rfl, middle, hreorder, hargs⟩ := alike_node.mp h
    rw [PatternTerm.mapVariables, PatternTerm.mapVariables, PatternTerm.mapVariablesAll_eq,
      PatternTerm.mapVariablesAll_eq]
    have hmapped : ∀ p ∈ args, ∀ q, Alike R p q → Alike S (p.mapVariables f) (q.mapVariables g) :=
      fun p hp q hpq => ih p hp hpq fun x hx =>
        hnames x (PatternTerm.mem_variableNames_node.mpr ⟨p, hp, hx⟩)
    have hboth := (List.forall₂_and_left middle others).mpr
      ⟨fun p hp => hmapped p (hreorder.perm.mem_iff.mpr hp), hargs⟩
    refine ArgsAlike.build ⟨middle.map (PatternTerm.mapVariables f), hreorder.map _, ?_⟩
    rw [List.forall₂_map_left_iff, List.forall₂_map_right_iff]
    exact hboth.imp fun _ q h => h.1 q h.2

/-! ### Operands -/

/-- **Alike operands of one commutative operation are equal,** in the whole tree. -/
inductive PatternTerm.Settled : PatternTerm → Prop
  | atom (t : Term) : Settled (.atom t)
  | wildcard (w : Wildcard) : Settled (.wildcard w)
  | node {head : Head} {args : List PatternTerm} (hargs : ∀ p ∈ args, Settled p)
    (halike : head.isCommutative = true → ∀ p ∈ args, ∀ q ∈ args,
      p.sequenceVariable? head = none → q.sequenceVariable? head = none → Alike Eq p q → p = q) :
    Settled (.node head args)

/-- What holds of an operation holds of its arguments. -/
theorem PatternTerm.Settled.of_mem (h : (PatternTerm.node head args).Settled) :
    ∀ p ∈ args, p.Settled := by
  cases h with
  | node hargs _ => exact hargs

/-- **Operands that differ in their order at most** are one and the same tree. -/
theorem PatternTerm.Settled.eq_of_alike (h : (PatternTerm.node head args).Settled)
    (hcomm : head.isCommutative = true) (hp : p ∈ args) (hq : q ∈ args)
    (hpvar : p.sequenceVariable? head = none) (hqvar : q.sequenceVariable? head = none)
    (hpq : Alike Eq p q) : p = q := by
  cases h with
  | node _ halike => exact halike hcomm p hp q hq hpvar hqvar hpq

end TermNet
