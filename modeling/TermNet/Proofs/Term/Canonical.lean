import Mathlib.Data.List.Perm.Basic
import TermNet.Proofs.Term.Order

namespace TermNet

/-!
# Canonical terms

A term is canonical when it is built, from its leaves up, with `Term.build`.  Its
operations are then flat, so that no argument of an associative operation has the
same head, and sorted where the order of the arguments does not matter.

* `Term.Canonical` — terms that are built;
* `Term.Flat head ts` — no term of `ts` would be spliced into its place under `head`;
* `Term.Canonical.node` — what is known of the arguments of a canonical operation;
* `Term.splice_rewrap` — the arguments that a run contributes after it has become one
  term.
-/

namespace Term

/-- Terms that are built from their leaves up. -/
inductive Canonical : Term → Prop where
  | integer (value : Int64) : Canonical (.integer value)
  | symbol (s : Symbol) : Canonical (.symbol s)
  | build (head : Head) {args : List Term} (canonical : ∀ t ∈ args, Canonical t) :
      Canonical (.build head args)

/-- Every term stands for itself among arguments of `head`. -/
def Flat (head : Head) (ts : List Term) : Prop := ∀ t ∈ ts, spliced head t = [t]

/-! ### Splicing -/

/-- No arguments contribute none. -/
@[simp] theorem splice_nil (head : Head) : splice head [] = [] := rfl

/-- Two lists of arguments contribute theirs one after the other. -/
@[simp] theorem splice_append (head : Head) (ss ts : List Term) :
    splice head (ss ++ ts) = splice head ss ++ splice head ts :=
  List.flatMap_append

/-- What the first argument contributes stands in front. -/
theorem splice_cons (head : Head) (t : Term) (ts : List Term) :
    splice head (t :: ts) = spliced head t ++ splice head ts :=
  List.flatMap_cons

/-- One argument contributes what it does. -/
theorem splice_singleton (head : Head) (t : Term) : splice head [t] = spliced head t := by
  rw [splice_cons, splice_nil, List.append_nil]

/-- An operation contributes its arguments if its head is the same and associative, and itself
    otherwise. -/
theorem spliced_node (head inner : Head) (args : List Term) :
    spliced head (.node inner args) =
      if head.isAssociative && inner = head then args else [.node inner args] := rfl

/-- Flat arguments are left as they are. -/
theorem splice_of_flat {head : Head} {ts : List Term} (h : Flat head ts) :
    splice head ts = ts := by
  induction ts with
  | nil => rfl
  | cons t ts ih =>
    rw [splice_cons, h t List.mem_cons_self, ih fun s hs => h s (List.mem_cons_of_mem _ hs)]
    rfl

/-- An argument is only spliced into an associative operation with its own head. -/
theorem spliced_of_hasHead_false {head : Head} {t : Term}
    (h : head.isAssociative = true → t.hasHead head = false) : spliced head t = [t] := by
  cases t with
  | integer v => rfl
  | symbol s => rfl
  | node inner args =>
    rw [spliced_node, if_neg]
    intro hspliced
    rw [Bool.and_eq_true, decide_eq_true_eq] at hspliced
    have hhead := h hspliced.1
    simp [hasHead, head?, hspliced.2] at hhead

/-- Below any other head every argument stands for itself. -/
theorem spliced_of_not_associative {head : Head} (h : head.isAssociative = false) (t : Term) :
    spliced head t = [t] :=
  spliced_of_hasHead_false fun h' => absurd (h.symm.trans h') (by decide)

/-- An operation with the same associative head contributes its arguments. -/
theorem spliced_node_self {head : Head} (h : head.isAssociative = true) (args : List Term) :
    spliced head (.node head args) = args := by
  simp [spliced, h]

/-- Some of the arguments of a flat list are flat. -/
theorem Flat.sublist {head : Head} {ss ts : List Term} (h : Flat head ts)
    (hsub : ∀ t ∈ ss, t ∈ ts) : Flat head ss :=
  fun t ht => h t (hsub t ht)

/-! ### Arranging -/

/-- Putting arguments in order keeps them. -/
theorem arrange_perm (head : Head) (ts : List Term) : (arrange head ts).Perm ts := by
  unfold arrange
  split
  · exact sortBy_perm _ ts
  · exact .refl _

/-- The order of the arguments of any other head stays. -/
theorem arrange_of_not_commutative {head : Head} (h : head.isCommutative = false)
    (ts : List Term) : arrange head ts = ts := by
  simp [arrange, h]

/-- The arguments of a commutative head are sorted. -/
theorem arrange_of_commutative {head : Head} (h : head.isCommutative = true)
    (ts : List Term) : arrange head ts = sortBy le ts := by
  simp [arrange, h]

/-- One argument is in order. -/
theorem arrange_singleton (head : Head) (t : Term) : arrange head [t] = [t] := by
  unfold arrange
  split <;> rfl

/-- Putting arguments in order again changes nothing. -/
theorem arrange_idem (head : Head) (ts : List Term) :
    arrange head (arrange head ts) = arrange head ts := by
  unfold arrange
  split
  · exact sortBy_idem ts
  · rfl

/-- The order of commutative arguments makes no difference. -/
theorem arrange_eq_of_perm {head : Head} (h : head.isCommutative = true) {ss ts : List Term}
    (hperm : ss.Perm ts) : arrange head ss = arrange head ts := by
  rw [arrange_of_commutative h, arrange_of_commutative h, sortBy_eq_of_perm hperm]

/-! ### Canonical operations -/

/-- What one argument of a canonical operation contributes. -/
theorem flat_spliced {head : Head} {t : Term}
    (h : ∀ inner args, t = .node inner args → Flat inner args) :
    Flat head (spliced head t) := by
  by_cases hhead : head.isAssociative = true ∧ t.hasHead head = true
  · obtain ⟨hassoc, hhead⟩ := hhead
    cases t with
    | integer v => simp [hasHead, head?] at hhead
    | symbol s => simp [hasHead, head?] at hhead
    | node inner args =>
      have heq : inner = head := by simpa [hasHead, head?] using hhead
      subst heq
      rw [spliced_node_self hassoc]
      exact h inner args rfl
  · have hself : spliced head t = [t] := by
      apply spliced_of_hasHead_false
      intro hassoc
      by_contra hne
      exact hhead ⟨hassoc, by simpa using hne⟩
    rw [hself]
    intro s hs
    rw [List.mem_singleton.mp hs, hself]

/-- **Arguments of a canonical operation:** they are canonical, flat and in order. -/
theorem Canonical.node {t : Term} (h : Canonical t) {head : Head} {args : List Term}
    (ht : t = .node head args) :
    (∀ s ∈ args, Canonical s) ∧ Flat head args ∧ arrange head args = args := by
  induction h generalizing head args with
  | integer v => exact absurd ht (by simp)
  | symbol s => exact absurd ht (by simp)
  | build inner canonical ih =>
    rename_i given
    simp only [Term.build, Term.node.injEq] at ht
    obtain ⟨rfl, rfl⟩ := ht
    have hmem : ∀ s ∈ arrange inner (splice inner given), ∃ t ∈ given, s ∈ spliced inner t := by
      intro s hs
      exact List.mem_flatMap.mp ((arrange_perm inner _).mem_iff.mp hs)
    refine ⟨?_, ?_, arrange_idem inner _⟩
    · intro s hs
      obtain ⟨t, ht, hst⟩ := hmem s hs
      -- What is spliced are arguments of a canonical term, all other terms stay whole.
      cases t with
      | integer v => exact List.mem_singleton.mp hst ▸ canonical _ ht
      | symbol a => exact List.mem_singleton.mp hst ▸ canonical _ ht
      | node k as =>
        rw [spliced_node] at hst
        split at hst
        · exact (ih _ ht rfl).1 s hst
        · exact List.mem_singleton.mp hst ▸ canonical _ ht
    · intro s hs
      obtain ⟨t, ht, hst⟩ := hmem s hs
      refine flat_spliced (fun k as hk => ?_) s hst
      exact (ih t ht hk).2.1

/-- The arguments of a canonical operation are canonical. -/
theorem Canonical.args {head : Head} {args : List Term} (h : Canonical (.node head args)) :
    ∀ s ∈ args, Canonical s :=
  (h.node rfl).1

/-- No argument of a canonical operation could be spliced. -/
theorem Canonical.flat {head : Head} {args : List Term} (h : Canonical (.node head args)) :
    Flat head args :=
  (h.node rfl).2.1

/-- The arguments of a canonical operation are in order. -/
theorem Canonical.arranged {head : Head} {args : List Term} (h : Canonical (.node head args)) :
    arrange head args = args :=
  (h.node rfl).2.2

/-- Building a canonical operation once more changes nothing. -/
theorem Canonical.build_args {head : Head} {args : List Term}
    (h : Canonical (.node head args)) : Term.build head args = .node head args := by
  rw [Term.build, splice_of_flat h.flat, h.arranged]

/-- Two argument lists build the same term if they contribute the same arguments, up
    to their order under a commutative head. -/
theorem build_eq_of_splice {head : Head} {ss ts : List Term}
    (h : splice head ss = splice head ts) : build head ss = build head ts := by
  rw [build, build, h]

/-- The order of the arguments of a commutative head does not matter to what is built. -/
theorem build_eq_of_perm {head : Head} (hcomm : head.isCommutative = true) {ss ts : List Term}
    (h : (splice head ss).Perm (splice head ts)) : build head ss = build head ts := by
  rw [build, build, arrange_eq_of_perm hcomm h]

/-- Building an operation from two lists only depends on what each of them builds. -/
theorem build_append {head : Head} {ss ss' ts ts' : List Term}
    (hs : build head ss = build head ss') (ht : build head ts = build head ts') :
    build head (ss ++ ts) = build head (ss' ++ ts') := by
  have hss : arrange head (splice head ss) = arrange head (splice head ss') := by
    simpa [build] using hs
  have hts : arrange head (splice head ts) = arrange head (splice head ts') := by
    simpa [build] using ht
  cases hcomm : head.isCommutative with
  | false =>
    rw [arrange_of_not_commutative hcomm, arrange_of_not_commutative hcomm] at hss hts
    refine build_eq_of_splice ?_
    rw [splice_append, splice_append, hss, hts]
  | true =>
    have hperm : ∀ {xs ys : List Term}, arrange head xs = arrange head ys → xs.Perm ys :=
      fun {xs ys} h => (arrange_perm head xs).symm.trans
        ((List.Perm.of_eq h).trans (arrange_perm head ys))
    refine build_eq_of_perm hcomm ?_
    rw [splice_append, splice_append]
    exact (hperm hss).append (hperm hts)

/-- An operation below one of the same associative head adds nothing. -/
theorem build_build {head : Head} (hassoc : head.isAssociative = true) (ts : List Term) :
    build head [build head ts] = build head ts := by
  rw [build, splice_singleton]
  conv_lhs => rw [build, spliced_node_self hassoc, arrange_idem]
  rfl

/-! ### Runs as one term -/

/-- A run that is not one term becomes an operation. -/
theorem rewrap_of_length_ne_one {head : Head} {run : List Term} (h : run.length ≠ 1) :
    rewrap head run = build head run := by
  match run, h with
  | [], _ => rfl
  | _ :: _ :: _, _ => rfl

/-- The arguments that a run of an associative operation contributes after it has
    become one term. -/
theorem splice_rewrap {head : Head} {run : List Term} (hassoc : head.isAssociative = true)
    (hflat : Flat head run) : splice head [rewrap head run] = arrange head run := by
  rw [splice_singleton]
  by_cases hlen : run.length = 1
  · obtain ⟨t, rfl⟩ := List.length_eq_one_iff.mp hlen
    rw [arrange_singleton]
    exact hflat t List.mem_cons_self
  · rw [rewrap_of_length_ne_one hlen, build, spliced_node_self hassoc, splice_of_flat hflat]

end Term

end TermNet
