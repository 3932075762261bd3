import TermNet.Proofs.Partition
import TermNet.Proofs.Pattern.Variables

namespace TermNet

/-!
# Sequence variables and how often they occur

Occurrences of one named variable are counted, and its part is taken as often as the
variable occurs.  So the parts make up what every occurrence takes for itself.

* `SequenceVariable.base` — a variable apart from its count;
* `occurring` — the occurrences among commutative arguments;
* `base_mem_occurring` — the variables are those that occur;
* `Counted`, `counted_sequenceVariables` — the parts of all variables are what the occurrences take;
* `exists_takes` — parts of the variables are takes of their occurrences.
-/

/-- A variable apart from how often it occurs. -/
def SequenceVariable.base (var : SequenceVariable) : SequenceVariable := { var with count := 1 }

/-- The occurrences of sequence variables among commutative arguments. -/
def occurring (head : Head) (args : List PatternTerm) : List SequenceVariable :=
  args.filterMap (PatternTerm.sequenceVariable? head)

/-- One occurrence of a sequence variable is as if it was not counted. -/
theorem base_sequenceVariable? {head : Head} {w : Wildcard} {var : SequenceVariable}
    (h : sequenceVariable? head w = some var) : var.base = var := by
  unfold sequenceVariable? at h
  split at h
  · rw [← Option.some.inj h]
    rfl
  · split at h
    · rw [← Option.some.inj h]
      rfl
    · split at h
      · rw [← Option.some.inj h]
        rfl
      · simp at h

/-- The occurrences among arguments are not counted yet. -/
theorem base_of_mem_occurring {head : Head} {args : List PatternTerm} {var : SequenceVariable}
    (h : var ∈ occurring head args) : var.base = var := by
  obtain ⟨p, -, hvar⟩ := List.mem_filterMap.mp h
  obtain ⟨w, rfl, hw⟩ := PatternTerm.sequenceVariable?_eq_some hvar
  exact base_sequenceVariable? hw

/-! ### Counting -/

variable {var : SequenceVariable} {vars : List SequenceVariable}

/-- With one count two sequence variables are equal if they are without their counts. -/
theorem count_eq_iff {known : SequenceVariable} :
    { var with count := known.count } = known ↔ var.base = known.base := by
  obtain ⟨name, count, minCount, default, fixed, wrap⟩ := var
  obtain ⟨name', count', minCount', default', fixed', wrap'⟩ := known
  simp [SequenceVariable.base]

/-- Counting a variable brings in no other one. -/
theorem base_of_mem_addSequenceVariable {v : SequenceVariable}
    (h : v ∈ addSequenceVariable var vars) :
    v.base = var.base ∨ ∃ known ∈ vars, v.base = known.base := by
  induction vars with
  | nil => exact .inl (List.mem_singleton.mp h ▸ rfl)
  | cons known rest ih =>
    unfold addSequenceVariable at h
    split at h
    · rcases List.mem_cons.mp h with rfl | h
      · exact .inr ⟨known, List.mem_cons_self, rfl⟩
      · exact .inr ⟨v, List.mem_cons_of_mem _ h, rfl⟩
    · rcases List.mem_cons.mp h with rfl | h
      · exact .inr ⟨v, List.mem_cons_self, rfl⟩
      · rcases ih h with hbase | ⟨other, hother, hbase⟩
        · exact .inl hbase
        · exact .inr ⟨other, List.mem_cons_of_mem _ hother, hbase⟩

/-- **Every sequence variable occurs,** whether it has a name or not. -/
theorem base_mem_occurring {head : Head} {args : List PatternTerm} {v : SequenceVariable}
    (h : v ∈ sequenceVariables head args) : v.base ∈ occurring head args := by
  -- Whatever is counted is one of the occurrences, but for its count.
  have hfrom : ∀ occurrences known : List SequenceVariable,
      v ∈ occurrences.foldl (fun known var => addSequenceVariable var known) known →
        ∃ u ∈ occurrences ++ known, v.base = u.base := by
    intro occurrences
    induction occurrences with
    | nil => exact fun known hv => ⟨v, hv, rfl⟩
    | cons var rest ih =>
      intro known hv
      obtain ⟨u, hu, heq⟩ := ih _ hv
      rcases List.mem_append.mp hu with hu | hu
      · exact ⟨u, by simp [hu], heq⟩
      · rcases base_of_mem_addSequenceVariable hu with hvar | ⟨other, hother, hvar⟩
        · exact ⟨var, by simp, heq.trans hvar⟩
        · exact ⟨other, by simp [hother], heq.trans hvar⟩
  obtain ⟨u, hu, heq⟩ := hfrom _ _ h
  rw [List.append_nil] at hu
  rw [heq, base_of_mem_occurring hu]
  exact hu

/-- Counting a named variable leaves the variables that are known, or adds a new one. -/
theorem addSequenceVariable_cases (hname : var.name.isSome = true)
    (vars : List SequenceVariable) :
    (∃ before known after, vars = before ++ known :: after ∧ known.base = var.base ∧
      addSequenceVariable var vars =
        before ++ { known with count := known.count + 1 } :: after) ∨
    ((∀ known ∈ vars, known.base ≠ var.base) ∧ addSequenceVariable var vars = vars ++ [var]) := by
  induction vars with
  | nil => exact .inr ⟨by simp, rfl⟩
  | cons known rest ih =>
    unfold addSequenceVariable
    -- Only named variables are counted together, and the name is part of what is compared.
    by_cases hsame : var.base = known.base
    · have hknown : known.name.isSome = true := by
        have heq : var.base.name = known.base.name := congrArg SequenceVariable.name hsame
        have hnames : var.name = known.name := heq
        rw [← hnames]
        exact hname
      refine .inl ⟨[], known, rest, rfl, hsame.symm, ?_⟩
      rw [if_pos]
      · rfl
      · simp [hknown, count_eq_iff.mpr hsame]
    · have hdiffer : ¬ { var with count := known.count } = known :=
        fun heq => hsame (count_eq_iff.mp heq)
      rw [if_neg (by simp [hdiffer])]
      rcases ih with ⟨before, other, after, rfl, hbase, heq⟩ | ⟨hnone, heq⟩
      · exact .inl ⟨known :: before, other, after, rfl, hbase, by rw [heq]; rfl⟩
      · refine .inr ⟨fun other hother => ?_, by rw [heq]; rfl⟩
        rcases List.mem_cons.mp hother with rfl | hother
        · exact Ne.symm hsame
        · exact hnone other hother

/-- What is true of variables while they are counted: they are counted at least once, and
    differ apart from their counts. -/
structure Counted (vars : List SequenceVariable) : Prop where
  positive : ∀ v ∈ vars, 1 ≤ v.count
  nodup : (vars.map SequenceVariable.base).Nodup

/-- What the variables take, each as often as it is counted. -/
def sharesBy (takes : SequenceVariable → List Term) (vars : List SequenceVariable) : List Term :=
  shares vars (vars.map fun v => takes v.base)

/-- What the first variable takes, as often as it occurs, and what the others take. -/
theorem sharesBy_cons (takes : SequenceVariable → List Term) (var : SequenceVariable)
    (vars : List SequenceVariable) :
    sharesBy takes (var :: vars) =
      (List.replicate (max var.count 1) (takes var.base)).flatten ++ sharesBy takes vars := rfl

/-- What two lists of variables take. -/
theorem sharesBy_append (takes : SequenceVariable → List Term) (vars more : List SequenceVariable) :
    sharesBy takes (vars ++ more) = sharesBy takes vars ++ sharesBy takes more := by
  induction vars with
  | nil => rfl
  | cons var rest ih => rw [List.cons_append, sharesBy_cons, sharesBy_cons, ih, List.append_assoc]

/-- **One more occurrence takes one more part.** -/
theorem counted_addSequenceVariable (hname : var.name.isSome = true) (hbase : var.base = var)
    (h : Counted vars) :
    Counted (addSequenceVariable var vars) ∧
      (∀ b, b ∈ (addSequenceVariable var vars).map SequenceVariable.base ↔
        b ∈ vars.map SequenceVariable.base ∨ b = var) ∧
      ∀ takes, (sharesBy takes (addSequenceVariable var vars)).Perm
        (sharesBy takes vars ++ takes var) := by
  have hcount : var.count = 1 := by
    rw [← hbase]
    rfl
  rcases addSequenceVariable_cases hname vars with
    ⟨before, known, after, rfl, hknown, heq⟩ | ⟨hnone, heq⟩
  -- A known variable is counted once more where it stands.
  · have hbases : (addSequenceVariable var (before ++ known :: after)).map SequenceVariable.base =
        (before ++ known :: after).map SequenceVariable.base := by
      rw [heq, List.map_append, List.map_append]
      rfl
    refine ⟨⟨fun v hv => ?_, ?_⟩, fun b => ?_, fun takes => ?_⟩
    · rw [heq] at hv
      rcases List.mem_append.mp hv with hv | hv
      · exact h.positive v (List.mem_append_left _ hv)
      · rcases List.mem_cons.mp hv with rfl | hv
        · exact Nat.le_add_left 1 known.count
        · exact h.positive v (List.mem_append_right _ (List.mem_cons_of_mem _ hv))
    · rw [hbases]
      exact h.nodup
    · rw [hbases]
      refine ⟨.inl, fun hb => hb.elim id fun heq => ?_⟩
      rw [heq, ← hbase, ← hknown]
      exact List.mem_map_of_mem (List.mem_append_right _ List.mem_cons_self)
    · have hpositive := h.positive known (List.mem_append_right _ List.mem_cons_self)
      have hmax : max (known.count + 1) 1 = max known.count 1 + 1 := by omega
      rw [heq, sharesBy_append, sharesBy_append, sharesBy_cons, sharesBy_cons]
      have hmore : (List.replicate (max (known.count + 1) 1) (takes known.base)).flatten.Perm
          ((List.replicate (max known.count 1) (takes known.base)).flatten ++ takes var) := by
        rw [hmax, List.replicate_succ, List.flatten_cons, hknown, hbase]
        exact List.perm_append_comm
      have hafter := (hmore.append_right (sharesBy takes after)).trans
        (List.Perm.of_eq (List.append_assoc _ _ _))
      have hlast : (takes var ++ sharesBy takes after).Perm (sharesBy takes after ++ takes var) :=
        List.perm_append_comm
      rw [List.append_assoc, List.append_assoc]
      exact (hafter.trans (hlast.append_left _)).append_left _
  -- A new variable stands behind the others.
  · refine ⟨⟨fun v hv => ?_, ?_⟩, fun b => ?_, fun takes => ?_⟩
    · rw [heq] at hv
      rcases List.mem_append.mp hv with hv | hv
      · exact h.positive v hv
      · rw [List.mem_singleton.mp hv, hcount]
    · rw [heq, List.map_append]
      refine List.nodup_append'.mpr ⟨h.nodup, List.nodup_singleton _, ?_⟩
      intro b hb hlast
      obtain ⟨known, hmem, rfl⟩ := List.mem_map.mp hb
      exact hnone known hmem (List.mem_singleton.mp hlast)
    · rw [heq, List.map_append, List.mem_append, List.map_singleton, List.mem_singleton, hbase]
    · have hone : sharesBy takes [var] = takes var := by
        rw [sharesBy_cons, hcount, hbase]
        simp [sharesBy, shares]
      rw [heq, sharesBy_append, hone]

/-- Counting occurrences one by one has each variable once, no others, and distributes the same.
    The induction is on the occurrences. -/
theorem counted_foldl {occurrences : List SequenceVariable}
    (hoccurrences : ∀ v ∈ occurrences, v.name.isSome = true ∧ v.base = v) (h : Counted vars) :
    Counted (occurrences.foldl (fun known var => addSequenceVariable var known) vars) ∧
      (∀ b, b ∈ (occurrences.foldl (fun known var => addSequenceVariable var known) vars).map
          SequenceVariable.base ↔ b ∈ vars.map SequenceVariable.base ∨ b ∈ occurrences) ∧
      ∀ takes, (sharesBy takes
        (occurrences.foldl (fun known var => addSequenceVariable var known) vars)).Perm
          (sharesBy takes vars ++ occurrences.flatMap takes) := by
  induction occurrences generalizing vars with
  | nil => exact ⟨h, fun b => by simp, fun takes => by simp⟩
  | cons first rest ih =>
    obtain ⟨hname, hbase⟩ := hoccurrences first List.mem_cons_self
    obtain ⟨hcounted, hbases, hshares⟩ := counted_addSequenceVariable hname hbase h
    obtain ⟨hcounted', hbases', hshares'⟩ :=
      ih (fun v hv => hoccurrences v (List.mem_cons_of_mem _ hv)) hcounted
    refine ⟨hcounted', fun b => ?_, fun takes => ?_⟩
    · rw [List.foldl_cons, hbases', hbases, List.mem_cons, or_assoc]
    · rw [List.foldl_cons, List.flatMap_cons, ← List.append_assoc]
      exact (hshares' takes).trans ((hshares takes).append_right _)

/-- Named variables among commutative arguments. -/
def NamedAmong (head : Head) (args : List PatternTerm) : Prop :=
  ∀ var ∈ occurring head args, var.name.isSome = true

variable {head : Head} {args : List PatternTerm}

/-- The counted sequence variables of an operation take what its occurrences take. -/
theorem counted_sequenceVariables (h : NamedAmong head args) :
    Counted (sequenceVariables head args) ∧
      (∀ b, b ∈ (sequenceVariables head args).map SequenceVariable.base ↔
        b ∈ occurring head args) ∧
      ∀ takes, (sharesBy takes (sequenceVariables head args)).Perm
        ((occurring head args).flatMap takes) := by
  have hnone : Counted [] := ⟨by simp, .nil⟩
  obtain ⟨hcounted, hbases, hshares⟩ :=
    counted_foldl (fun v hv => ⟨h v hv, base_of_mem_occurring hv⟩) hnone
  exact ⟨hcounted, fun b => (hbases b).trans (by simp), fun takes => hshares takes⟩

/-- **Parts of the variables are takes of their occurrences.** -/
theorem exists_takes (h : NamedAmong head args) {parts : List (List Term)}
    (hlength : (sequenceVariables head args).length = parts.length) :
    ∃ takes : SequenceVariable → List Term,
      parts = (sequenceVariables head args).map fun v => takes v.base := by
  obtain ⟨⟨-, hnodup⟩, -⟩ := counted_sequenceVariables h
  generalize sequenceVariables head args = vars at hlength hnodup
  induction vars generalizing parts with
  | nil =>
    refine ⟨fun _ => [], ?_⟩
    exact List.length_eq_zero_iff.mp hlength.symm
  | cons var rest ih =>
    cases parts with
    | nil => simp at hlength
    | cons part parts =>
      rw [List.map_cons, List.nodup_cons] at hnodup
      obtain ⟨takes, htakes⟩ := ih (Nat.succ.inj hlength) hnodup.2
      -- No other variable is equal to the first one without their counts.
      refine ⟨fun b => if b = var.base then part else takes b, ?_⟩
      rw [htakes, List.map_cons]
      dsimp only
      rw [if_pos rfl]
      refine congrArg (part :: ·) (List.map_congr_left fun v hv => (if_neg fun heq => ?_).symm)
      exact hnodup.1 (heq ▸ List.mem_map_of_mem hv)

end TermNet
