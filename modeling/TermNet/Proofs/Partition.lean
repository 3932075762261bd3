import Mathlib.Data.List.Nodup
import Mathlib.Data.List.Perm.Basic
import Mathlib.Data.List.Perm.Subperm
import Mathlib.Data.List.Count
import TermNet.Partition
import TermNet.Proofs.Term.Order

namespace TermNet

/-!
# What partitions are

The enumeration counts equal arguments and shares out the numbers.  Said without
numbers: each variable gets a sorted list of an admitted length, and the lists, each
taken as often as its variable is counted, make up what there is to share out.

* `shares vars parts` — all parts, each as often as its variable is counted;
* `IsPartition` — what a partition is;
* `mem_split_iff` — the invariant of the enumeration, with numbers for terms;
* `mem_partitions_iff` — exactly the partitions are listed.
-/

/-- All parts, each as often as its variable is counted. -/
def shares (vars : List SequenceVariable) (parts : List (List Term)) : List Term :=
  (vars.zip parts).flatMap fun (var, run) => (List.replicate (max var.count 1) run).flatten

/-- The parts are sorted, of admitted lengths, and make up the arguments. -/
structure IsPartition (leftover : List Term) (vars : List SequenceVariable)
    (parts : List (List Term)) : Prop where
  admitted : List.Forall₂ (fun var run => run.Pairwise (fun s t => s.le t = true) ∧
    var.admits run.length = true) vars parts
  perm : leftover.Perm (shares vars parts)

namespace Partition

/-! ### Counting equal arguments -/

/-- The numbers of the distinct terms of a sorted list. -/
structure IsCounted (ts : List Term) (runs : List (Term × Nat)) : Prop where
  nodup : (runs.map Prod.fst).Nodup
  sorted : (runs.map Prod.fst).Pairwise (fun s t => s.le t = true)
  mem : ∀ t, t ∈ runs.map Prod.fst ↔ t ∈ ts
  counts : runs.map Prod.snd = (runs.map Prod.fst).map (fun t => ts.count t)

/-- One more term changes none of the counts of the other terms. -/
theorem map_count_cons_of_not_mem {t : Term} {ts distinct : List Term} (h : t ∉ distinct) :
    distinct.map (fun s => (t :: ts).count s) = distinct.map (fun s => ts.count s) := by
  refine List.map_congr_left fun s hs => ?_
  have hne : t ≠ s := fun heq => h (heq ▸ hs)
  exact List.count_cons_of_ne hne

/-- Counting the runs of equal terms of a sorted list counts its terms. -/
theorem isCounted_countRuns {ts : List Term} (h : ts.Pairwise (fun s t => s.le t = true)) :
    IsCounted ts (countRuns ts) := by
  induction ts with
  | nil => exact ⟨.nil, .nil, fun _ => Iff.rfl, rfl⟩
  | cons t ts ih =>
    obtain ⟨hle, hsorted⟩ := List.pairwise_cons.mp h
    have hts := ih hsorted
    rw [countRuns]
    generalize countRuns ts = runs at hts
    have hnew : t ∉ ts → IsCounted (t :: ts) ((t, 1) :: runs) := by
      intro hnot
      have hruns : t ∉ runs.map Prod.fst := fun hmem => hnot ((hts.mem t).mp hmem)
      refine ⟨List.nodup_cons.mpr ⟨hruns, hts.nodup⟩, ?_, fun s => ?_, ?_⟩
      · exact List.pairwise_cons.mpr ⟨fun s hs => hle s ((hts.mem s).mp hs), hts.sorted⟩
      · rw [List.map_cons, List.mem_cons, List.mem_cons, hts.mem]
      · rw [List.map_cons, List.map_cons, List.map_cons, hts.counts,
          map_count_cons_of_not_mem hruns, List.count_cons_self, List.count_eq_zero_of_not_mem hnot]
    cases runs with
    | nil =>
      refine hnew fun hmem => ?_
      exact List.not_mem_nil ((hts.mem t).mpr hmem)
    | cons run rest =>
      obtain ⟨first, n⟩ := run
      rw [countCons]
      by_cases heq : t = first
      · subst heq
        rw [if_pos rfl]
        have hmem := (hts.mem t).mp List.mem_cons_self
        have hcounts := hts.counts
        have hnodup := List.nodup_cons.mp hts.nodup
        rw [List.map_cons, List.map_cons, List.map_cons, List.cons.injEq] at hcounts
        refine ⟨hts.nodup, hts.sorted, fun s => ?_, ?_⟩
        · rw [List.mem_cons, ← hts.mem]
          exact ⟨.inr, fun h => h.elim (fun h => h ▸ List.mem_cons_self) id⟩
        · rw [List.map_cons, List.map_cons, List.map_cons, List.count_cons_self, ← hcounts.1,
            map_count_cons_of_not_mem hnodup.1, ← hcounts.2]
      · rw [if_neg heq]
        refine hnew fun hmem => heq ?_
        -- `first` is the least term of `ts`, and `t` is not above any of them.
        have hfirst := hle first ((hts.mem first).mp List.mem_cons_self)
        rcases List.mem_cons.mp ((hts.mem t).mpr hmem) with h | h
        · exact h
        · exact Term.le_antisymm hfirst ((List.pairwise_cons.mp hts.sorted).1 t h)

/-! ### Numbers for terms -/

/-- The list with these numbers of terms has each term as often as its number says, and no other
    one. -/
theorem count_multiset {distinct : List Term} (hnodup : distinct.Nodup) {takes : List Nat}
    (hlength : takes.length = distinct.length) :
    distinct.map (fun t => (multiset distinct takes).count t) = takes ∧
      ∀ t, t ∉ distinct → t ∉ multiset distinct takes := by
  induction distinct generalizing takes with
  | nil =>
    obtain rfl := List.eq_nil_of_length_eq_zero hlength
    exact ⟨rfl, fun t _ => by simp [multiset]⟩
  | cons d ds ih =>
    obtain ⟨hd, hds⟩ := List.nodup_cons.mp hnodup
    obtain ⟨take, takes, rfl⟩ := List.exists_cons_of_length_eq_add_one hlength
    obtain ⟨hcounts, hnot⟩ := ih hds (by simpa using hlength)
    have hcons : multiset (d :: ds) (take :: takes) = List.replicate take d ++ multiset ds takes :=
      rfl
    refine ⟨?_, fun t ht => ?_⟩
    · rw [hcons, List.map_cons, List.count_append, List.count_replicate_self,
        List.count_eq_zero_of_not_mem (hnot d hd), Nat.add_zero]
      refine congrArg (take :: ·) (Eq.trans (List.map_congr_left fun t ht => ?_) hcounts)
      have hne : d ≠ t := fun heq => hd (heq ▸ ht)
      rw [List.count_append, List.count_replicate, if_neg (by simpa using hne), Nat.zero_add]
    · rw [List.mem_cons, not_or] at ht
      rw [hcons, List.mem_append, not_or]
      exact ⟨fun hmem => ht.1 (List.eq_of_mem_replicate hmem), hnot t ht.2⟩

/-- Repeating sorted terms gives a sorted list. -/
theorem sorted_multiset {distinct : List Term}
    (hsorted : distinct.Pairwise (fun s t => s.le t = true)) (takes : List Nat) :
    (multiset distinct takes).Pairwise (fun s t => s.le t = true) := by
  induction distinct generalizing takes with
  | nil => simp [multiset]
  | cons d ds ih =>
    cases takes with
    | nil => simp [multiset]
    | cons take takes =>
      obtain ⟨hle, hds⟩ := List.pairwise_cons.mp hsorted
      have hcons : multiset (d :: ds) (take :: takes) =
          List.replicate take d ++ multiset ds takes := rfl
      rw [hcons, List.pairwise_append]
      refine ⟨List.pairwise_replicate.mpr (.inr (Term.le_iff.mpr (.inr rfl))), ih hds takes, ?_⟩
      intro s hs t ht
      obtain rfl := List.eq_of_mem_replicate hs
      obtain ⟨pair, hpair, ht⟩ := List.mem_flatMap.mp ht
      obtain rfl := List.eq_of_mem_replicate ht
      exact hle _ (List.of_mem_zip hpair).1

/-- A sorted list of some of the terms is given by its numbers. -/
theorem multiset_count {distinct run : List Term} (hnodup : distinct.Nodup)
    (hsorted : distinct.Pairwise (fun s t => s.le t = true))
    (hrun : run.Pairwise (fun s t => s.le t = true)) (hmem : ∀ t ∈ run, t ∈ distinct) :
    multiset distinct (distinct.map fun t => run.count t) = run := by
  have hlength : (distinct.map fun t => run.count t).length = distinct.length := List.length_map _
  obtain ⟨hcounts, hnot⟩ := count_multiset hnodup hlength
  have hperm : (multiset distinct (distinct.map fun t => run.count t)).Perm run := by
    refine List.perm_iff_count.mpr fun t => ?_
    by_cases ht : t ∈ distinct
    · exact List.map_inj_left.mp hcounts t ht
    · rw [List.count_eq_zero_of_not_mem (hnot t ht),
        List.count_eq_zero_of_not_mem fun h => ht (hmem t h)]
  exact hperm.eq_of_pairwise (fun _ _ _ _ => Term.le_antisymm) (sorted_multiset hsorted _) hrun

/-- The length of a list with these numbers of terms is the sum of the numbers. -/
theorem length_multiset {distinct : List Term} {takes : List Nat}
    (hlength : takes.length = distinct.length) :
    (multiset distinct takes).length = takes.foldr (· + ·) 0 := by
  induction distinct generalizing takes with
  | nil =>
    obtain rfl := List.eq_nil_of_length_eq_zero hlength
    rfl
  | cons d ds ih =>
    obtain ⟨take, takes, rfl⟩ := List.exists_cons_of_length_eq_add_one hlength
    have hcons : multiset (d :: ds) (take :: takes) = List.replicate take d ++ multiset ds takes :=
      rfl
    rw [hcons, List.length_append, List.length_replicate, ih (by simpa using hlength)]
    rfl

/-! ### One variable -/

/-- The last variable takes all copies, if they can be shared out evenly. -/
theorem mem_exact_iff {count : Nat} (hcount : 0 < count) {a take : Nat} :
    take ∈ (if a % count = 0 then [a / count] else []) ↔ take * count = a := by
  constructor
  · intro h
    split at h
    · rename_i hmod
      rw [List.mem_singleton.mp h]
      exact Nat.div_mul_cancel (Nat.dvd_of_mod_eq_zero hmod)
    · exact absurd h List.not_mem_nil
  · rintro rfl
    rw [if_pos (Nat.mul_mod_left take count), Nat.mul_div_cancel take hcount]
    exact List.mem_singleton_self take

/-- What may be taken of one number: any multiple that there is, all of it by the last
    variable. -/
theorem mem_options_iff {count : Nat} (hcount : 0 < count) {last : Bool} {a take : Nat} :
    take ∈ (if last then if a % count = 0 then [a / count] else []
        else List.range (a / count + 1)) ↔
      take * count ≤ a ∧ (last = true → take * count = a) := by
  cases last with
  | false =>
    rw [if_neg (by simp), List.mem_range, Nat.lt_succ_iff, Nat.le_div_iff_mul_le hcount]
    simp
  | true =>
    rw [if_pos rfl, mem_exact_iff hcount]
    exact ⟨fun h => ⟨Nat.le_of_eq h, fun _ => h⟩, fun h => h.2 rfl⟩

/-- The shares of one variable: as many copies as there are, all of them for the last. -/
theorem mem_choices_iff {count : Nat} (hcount : 0 < count) {last : Bool}
    {available takes left : List Nat} :
    (takes, left) ∈ choices count last available ↔
      List.Forall₂ (fun a take => take * count ≤ a ∧ (last = true → take * count = a))
        available takes ∧
      left = List.zipWith (fun a take => a - take * count) available takes := by
  induction available generalizing takes left with
  | nil =>
    rw [choices, List.mem_singleton, Prod.mk.injEq, List.forall₂_nil_left_iff]
    constructor
    · rintro ⟨rfl, rfl⟩
      exact ⟨rfl, rfl⟩
    · rintro ⟨rfl, rfl⟩
      exact ⟨rfl, rfl⟩
  | cons a rest ih =>
    simp only [choices, List.mem_flatMap, List.mem_map, Prod.exists, Prod.mk.injEq,
      mem_options_iff hcount]
    constructor
    · rintro ⟨take, htake, takes, left, hrest, rfl, rfl⟩
      obtain ⟨hall, rfl⟩ := ih.mp hrest
      exact ⟨.cons htake hall, rfl⟩
    · rintro ⟨hall, rfl⟩
      obtain ⟨take, takes, htake, hrest, rfl⟩ := List.forall₂_cons_left_iff.mp hall
      exact ⟨take, htake, takes, _, ih.mpr ⟨hrest, rfl⟩, rfl, rfl⟩

/-- Repeating a run multiplies its counts. -/
theorem count_flatten_replicate (n : Nat) (run : List Term) (t : Term) :
    (List.replicate n run).flatten.count t = n * run.count t := by
  induction n with
  | zero => simp
  | succ n ih =>
    rw [List.replicate_succ, List.flatten_cons, List.count_append, ih, Nat.succ_mul]
    omega

/-- The same for multisets that are given by their numbers. -/
theorem mem_choices_map_iff {count : Nat} (hcount : 0 < count) {last : Bool}
    {distinct run available : List Term} {left : List Nat} :
    (distinct.map (fun t => run.count t), left) ∈
        choices count last (distinct.map fun t => available.count t) ↔
      (∀ t ∈ distinct, run.count t * count ≤ available.count t ∧
        (last = true → run.count t * count = available.count t)) ∧
      left = distinct.map fun t => available.count t - run.count t * count := by
  rw [mem_choices_iff hcount, List.forall₂_map_left_iff, List.forall₂_map_right_iff,
    List.forall₂_same, List.zipWith_map, List.zipWith_self]

/-! ### What one variable takes -/

/-- Taking away a run, as often as its variable is counted, in numbers. -/
theorem perm_run_append_iff {count : Nat} {available run others : List Term} :
    available.Perm ((List.replicate count run).flatten ++ others) ↔
      ∀ t, available.count t = run.count t * count + others.count t := by
  rw [List.perm_iff_count]
  refine forall_congr' fun t => ?_
  rw [List.count_append, count_flatten_replicate, Nat.mul_comm]

/-- **A choice of numbers takes a run away,** and the numbers that it leaves are those of
    the other arguments. -/
theorem exists_others_of_mem_choices {count : Nat} (hcount : 0 < count) {last : Bool}
    {distinct available : List Term} (hnodup : distinct.Nodup)
    (hmem : ∀ t ∈ available, t ∈ distinct) {takes left : List Nat}
    (h : (takes, left) ∈ choices count last (distinct.map fun t => available.count t)) :
    takes.length = distinct.length ∧ ∃ others : List Term,
      available.Perm ((List.replicate count (multiset distinct takes)).flatten ++ others) ∧
      left = distinct.map fun t => others.count t := by
  have hlength : takes.length = distinct.length := by
    have hsame := ((mem_choices_iff hcount).mp h).1.length_eq
    rw [List.length_map] at hsame
    exact hsame.symm
  obtain ⟨hcounts, hnot⟩ := count_multiset hnodup hlength
  generalize multiset distinct takes = run at hcounts hnot
  rw [← hcounts, mem_choices_map_iff hcount] at h
  obtain ⟨hle, rfl⟩ := h
  -- What is left is the difference of multisets.
  have hothers : ∀ t, (available.diff (List.replicate count run).flatten).count t =
      available.count t - run.count t * count := fun t => by
    rw [List.count_diff, count_flatten_replicate, Nat.mul_comm]
  refine ⟨hlength, available.diff (List.replicate count run).flatten, ?_,
    List.map_congr_left fun t _ => (hothers t).symm⟩
  refine perm_run_append_iff.mpr fun t => ?_
  rw [hothers]
  -- The choice bounds the numbers of the distinct terms only; of others there are none.
  by_cases ht : t ∈ distinct
  · have := (hle t ht).1
    omega
  · have hzero : available.count t = 0 :=
      List.count_eq_zero_of_not_mem fun h => ht (hmem t h)
    rw [List.count_eq_zero_of_not_mem (hnot t ht), hzero]
    omega

/-- **Every run that can be taken away is a choice of numbers,** for the last variable if
    nothing else is left. -/
theorem mem_choices_of_perm {count : Nat} (hcount : 0 < count) {last : Bool}
    {distinct available run others : List Term}
    (hperm : available.Perm ((List.replicate count run).flatten ++ others))
    (hlast : last = true → others = []) :
    (distinct.map fun t => run.count t, distinct.map fun t => others.count t) ∈
      choices count last (distinct.map fun t => available.count t) := by
  have hcounts := perm_run_append_iff.mp hperm
  rw [mem_choices_map_iff hcount]
  refine ⟨fun t _ => ⟨?_, fun h => ?_⟩, List.map_congr_left fun t _ => ?_⟩
  · have := hcounts t
    omega
  · rw [hcounts t, hlast h, List.count_nil, Nat.add_zero]
  · have := hcounts t
    omega

/-! ### All variables -/

/-- Nothing is left if all counts are zero. -/
theorem all_count_eq_zero_iff {distinct available : List Term}
    (hmem : ∀ t ∈ available, t ∈ distinct) :
    ((distinct.map fun t => available.count t).all (· = 0)) = true ↔ available = [] := by
  simp only [List.all_map, List.all_eq_true, Function.comp_apply, decide_eq_true_eq]
  constructor
  · intro h
    refine List.eq_nil_iff_forall_not_mem.mpr fun t ht => ?_
    exact List.count_eq_zero.mp (h t (hmem t ht)) ht
  · rintro rfl t _
    rfl

/-- Without variables only nothing can be distributed, in one way. -/
theorem isPartition_nil_iff {available : List Term} {parts : List (List Term)} :
    IsPartition available [] parts ↔ parts = [] ∧ available = [] := by
  constructor
  · rintro ⟨hparts, hperm⟩
    rw [List.forall₂_nil_left_iff] at hparts
    subst hparts
    exact ⟨rfl, hperm.eq_nil⟩
  · rintro ⟨rfl, rfl⟩
    exact ⟨.nil, .refl _⟩

/-- The first variable takes its part, and the other variables share out the rest. -/
theorem isPartition_cons_iff {available : List Term} {var : SequenceVariable}
    {vars : List SequenceVariable} {parts : List (List Term)} :
    IsPartition available (var :: vars) parts ↔ ∃ run tail others, parts = run :: tail ∧
      (run.Pairwise (fun s t => s.le t = true) ∧ var.admits run.length = true) ∧
      available.Perm ((List.replicate (max var.count 1) run).flatten ++ others) ∧
      IsPartition others vars tail := by
  constructor
  · rintro ⟨hparts, hperm⟩
    obtain ⟨run, tail, hrun, htail, rfl⟩ := List.forall₂_cons_left_iff.mp hparts
    exact ⟨run, tail, shares vars tail, rfl, hrun, hperm, htail, .refl _⟩
  · rintro ⟨run, tail, others, rfl, hrun, hperm, htail⟩
    exact ⟨.cons hrun htail.admitted, hperm.trans (htail.perm.append_left _)⟩

/-- **The invariant of the enumeration:** it lists the partitions of every multiset of
    the distinct terms. -/
theorem mem_split_iff {distinct : List Term} (hnodup : distinct.Nodup)
    (hsorted : distinct.Pairwise (fun s t => s.le t = true)) {vars : List SequenceVariable}
    {parts : List (List Term)} {available : List Term} (hmem : ∀ t ∈ available, t ∈ distinct) :
    parts ∈ split distinct vars (distinct.map fun t => available.count t) ↔
      IsPartition available vars parts := by
  induction vars generalizing parts available with
  | nil =>
    rw [split, isPartition_nil_iff, ← all_count_eq_zero_iff hmem]
    split
    · rename_i hall
      rw [List.mem_singleton, and_iff_left hall]
    · rename_i hall
      exact ⟨fun h => absurd h List.not_mem_nil, fun h => absurd h.2 hall⟩
  | cons var rest ih =>
    have hcount : 0 < max var.count 1 := by omega
    rw [isPartition_cons_iff]
    simp only [split, List.mem_flatMap, List.mem_filter, List.mem_map, Prod.exists]
    constructor
    · rintro ⟨takes, left, ⟨hchoice, hadmits⟩, tail, htail, rfl⟩
      obtain ⟨hlength, others, hperm, rfl⟩ :=
        exists_others_of_mem_choices hcount hnodup hmem hchoice
      rw [← length_multiset hlength] at hadmits
      have hothers : ∀ t ∈ others, t ∈ distinct := fun t ht =>
        hmem t (hperm.mem_iff.mpr (List.mem_append_right _ ht))
      exact ⟨_, tail, others, rfl, ⟨sorted_multiset hsorted takes, hadmits⟩, hperm,
        (ih hothers).mp htail⟩
    · rintro ⟨run, tail, others, rfl, ⟨hrun, hadmits⟩, hperm, htail⟩
      have hothers : ∀ t ∈ others, t ∈ distinct := fun t ht =>
        hmem t (hperm.mem_iff.mpr (List.mem_append_right _ ht))
      have hrunMem : ∀ t ∈ run, t ∈ distinct := fun t ht => by
        refine hmem t (List.count_pos_iff.mp ?_)
        have hpos := Nat.mul_pos (List.count_pos_iff.mpr ht) hcount
        have := perm_run_append_iff.mp hperm t
        omega
      -- The last variable has to take everything.
      have hlast : rest.isEmpty = true → others = [] := fun h => by
        rw [List.isEmpty_iff.mp h] at htail
        exact (isPartition_nil_iff.mp htail).2
      have hmultiset := multiset_count hnodup hsorted hrun hrunMem
      refine ⟨_, _, ⟨mem_choices_of_perm hcount hperm hlast, ?_⟩, tail,
        (ih hothers).mpr htail, ?_⟩
      · rw [← length_multiset (List.length_map _), hmultiset]
        exact hadmits
      · rw [hmultiset]

end Partition

/-- **Exactly the partitions are listed.** -/
theorem mem_partitions_iff {leftover : List Term} {vars : List SequenceVariable}
    {parts : List (List Term)} :
    parts ∈ partitions leftover vars ↔ IsPartition leftover vars parts := by
  have h := Partition.isCounted_countRuns (sorted_sortBy_le leftover)
  have hperm := sortBy_perm Term.le leftover
  unfold partitions
  simp only [h.counts]
  rw [Partition.mem_split_iff h.nodup h.sorted fun t ht => (h.mem t).mpr ht]
  constructor
  · exact fun hparts => ⟨hparts.admitted, hperm.symm.trans hparts.perm⟩
  · exact fun hparts => ⟨hparts.admitted, hperm.trans hparts.perm⟩

/-- The order of the arguments makes no difference. -/
theorem partitions_eq_of_perm {ss ts : List Term} (h : ss.Perm ts)
    (vars : List SequenceVariable) : partitions ss vars = partitions ts vars := by
  unfold partitions
  rw [sortBy_eq_of_perm h]

end TermNet
