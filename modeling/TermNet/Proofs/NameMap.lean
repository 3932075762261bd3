import Mathlib.Data.List.Nodup
import TermNet.NameMap

namespace TermNet.NameMap

/-!
# Name maps as partial functions

A name map is determined by what it gives to each name, because its entries are
kept in the order of their names.

* `mem_entries` — an entry is a name with its value;
* `ext_find?` — maps that give the same to every name are equal;
* `find?_ofList` — what the map of a list of entries with different names holds.
-/

variable {α : Type}

/-! ### Entries and look-up -/

/-- A name in front of all entries is not found. -/
theorem findEntry_eq_none_of_lt {name : String} {entries : List (String × α)}
    (h : ∀ entry ∈ entries, name < entry.1) : findEntry name entries = none := by
  induction entries with
  | nil => rfl
  | cons first rest ih =>
    have hne : name ≠ first.1 := fun heq =>
      String.lt_irrefl name (heq ▸ h first List.mem_cons_self)
    rw [findEntry, if_neg hne]
    exact ih fun entry hmem => h entry (List.mem_cons_of_mem _ hmem)

/-- In increasing entries every entry is found under its name. -/
theorem mem_iff_findEntry {name : String} {value : α} {entries : List (String × α)}
    (increasing : entries.Pairwise (fun a b => a.1 < b.1)) :
    (name, value) ∈ entries ↔ findEntry name entries = some value := by
  induction entries with
  | nil => simp [findEntry]
  | cons first rest ih =>
    obtain ⟨above, hrest⟩ := List.pairwise_cons.mp increasing
    by_cases hname : name = first.1
    -- The entries behind have larger names.
    · have hnone : findEntry name rest = none := by
        rw [hname]
        exact findEntry_eq_none_of_lt above
      have hnot : (name, value) ∉ rest := fun hmem => by
        rw [(ih hrest).mp hmem] at hnone
        exact absurd hnone (by simp)
      rw [findEntry, if_pos hname, List.mem_cons, or_iff_left hnot, Option.some.injEq,
        hname, Prod.ext_iff]
      simp [eq_comm]
    · rw [findEntry, if_neg hname, List.mem_cons, ← ih hrest, or_iff_right]
      intro heq
      exact hname (congrArg Prod.fst heq)

/-- An entry is a name with its value. -/
theorem mem_entries {m : NameMap α} {name : String} {value : α} :
    (name, value) ∈ m.entries ↔ m.find? name = some value :=
  mem_iff_findEntry m.increasing

/-- No name stands twice in a map. -/
theorem nodup_names (m : NameMap α) : (m.entries.map Prod.fst).Nodup := by
  rw [List.Nodup, List.pairwise_map]
  refine m.increasing.imp fun {a b} hlt heq => ?_
  rw [heq] at hlt
  exact String.lt_irrefl _ hlt

/-- **Maps that give the same to every name are equal.** -/
theorem ext_find? {m n : NameMap α} (h : ∀ name, m.find? name = n.find? name) : m = n := by
  have hmem : ∀ entry, entry ∈ m.entries ↔ entry ∈ n.entries := fun (name, value) => by
    rw [mem_entries, mem_entries, h]
  have hperm : m.entries.Perm n.entries :=
    (List.perm_ext_iff_of_nodup (List.Nodup.of_map _ m.nodup_names)
      (List.Nodup.of_map _ n.nodup_names)).mpr hmem
  have heq : m.entries = n.entries := by
    refine hperm.eq_of_pairwise (fun a b _ _ hab hba => ?_) m.increasing n.increasing
    exact absurd (String.lt_trans hab hba) (String.lt_irrefl _)
  obtain ⟨entries, _⟩ := m
  obtain ⟨entries', _⟩ := n
  subst heq
  rfl

/-- Maps that hold the same are equal. -/
theorem ext_some {m n : NameMap α}
    (h : ∀ name value, m.find? name = some value ↔ n.find? name = some value) : m = n :=
  ext_find? fun name => Option.ext (h name)

/-- A map contains a name if it holds something for it. -/
theorem contains_iff {m : NameMap α} {name : String} :
    m.contains name = true ↔ ∃ value, m.find? name = some value := by
  rw [contains, Option.isSome_iff_exists]

/-- The names of a map are those that it holds something for. -/
theorem mem_names {m : NameMap α} {name : String} :
    name ∈ m.names ↔ ∃ value, m.find? name = some value := by
  simp only [names, List.mem_map, Prod.exists, exists_and_right, exists_eq_right, mem_entries]

/-- Part of a map, by what it holds. -/
theorem exists_part (m : NameMap α) {P : String → α → Prop}
    (h : ∀ name value, P name value → m.find? name = some value) :
    ∃ part : NameMap α, ∀ name value, part.find? name = some value ↔ P name value := by
  classical
  refine ⟨⟨m.entries.filter fun entry => P entry.1 entry.2, m.increasing.filter _⟩,
    fun name value => ?_⟩
  rw [← mem_entries, List.mem_filter, mem_entries, decide_eq_true_eq]
  exact ⟨And.right, fun hpart => ⟨h name value hpart, hpart⟩⟩

/-- A map with other values, which may depend on the names. -/
theorem exists_mapped {β : Type} (m : NameMap α) (f : String → α → β) :
    ∃ n : NameMap β, ∀ name, n.find? name = (m.find? name).map (f name) := by
  refine ⟨⟨m.entries.map fun entry => (entry.1, f entry.1 entry.2), ?_⟩, fun name => ?_⟩
  · rw [List.pairwise_map]
    exact m.increasing
  · refine Option.ext fun value => ?_
    rw [← mem_entries, List.mem_map, Option.map_eq_some_iff]
    constructor
    · rintro ⟨entry, hentry, heq⟩
      obtain ⟨rfl, rfl⟩ := Prod.mk.inj heq
      exact ⟨entry.2, mem_entries.mp hentry, rfl⟩
    · rintro ⟨old, hold, rfl⟩
      exact ⟨(name, old), mem_entries.mpr hold, rfl⟩

/-- Maps with the same names list them in the same order. -/
theorem names_eq_of_mem {β : Type} {m : NameMap α} {n : NameMap β}
    (h : ∀ name, name ∈ m.names ↔ name ∈ n.names) : m.names = n.names := by
  have hincreasing : ∀ {γ : Type} (k : NameMap γ), k.names.Pairwise (· < ·) := fun k => by
    rw [names, List.pairwise_map]
    exact k.increasing
  have hperm : m.names.Perm n.names :=
    (List.perm_ext_iff_of_nodup m.nodup_names n.nodup_names).mpr h
  refine hperm.eq_of_pairwise (fun a b _ _ hab hba => ?_) (hincreasing m) (hincreasing n)
  exact absurd (String.lt_trans hab hba) (String.lt_irrefl a)

/-! ### Building maps -/

/-- The empty map holds nothing. -/
@[simp] theorem find?_empty (name : String) : (empty : NameMap α).find? name = none := rfl

/-- Inserting under a new name keeps what is there. -/
theorem find?_insertNew (m : NameMap α) (name key : String) (value : α) :
    (m.insertNew name value).find? key =
      if key = name then some ((m.find? name).getD value) else m.find? key := by
  unfold insertNew contains
  cases hfind : m.find? name with
  | none => simp [find?_insert]
  | some old =>
    by_cases hkey : key = name
    · simp [hkey, hfind]
    · simp [hkey]

/-- Entries with different names are all found. -/
theorem find?_foldl_insert {entries : List (String × α)} (m : NameMap α)
    (nodup : (entries.map Prod.fst).Nodup) (name : String) :
    (entries.foldl (fun map entry => map.insert entry.1 entry.2) m).find? name =
      (entries.lookup name).or (m.find? name) := by
  induction entries generalizing m with
  | nil => simp
  | cons entry rest ih =>
    rw [List.map_cons, List.nodup_cons] at nodup
    rw [List.foldl_cons, ih _ nodup.2, find?_insert, List.lookup_cons]
    by_cases hname : name = entry.1
    · have hnone : rest.lookup name = none := by
        rw [List.lookup_eq_none_iff]
        intro pair hpair
        simp only [bne_iff_ne, ne_eq]
        intro heq
        have hmem : pair.1 ∈ rest.map Prod.fst := List.mem_map_of_mem hpair
        rw [← heq, hname] at hmem
        exact nodup.1 hmem
      simp [hname ▸ hnone, hname]
    · have hbeq : (name == entry.1) = false := by simpa using hname
      rw [hbeq, if_neg hname]

/-- The map of entries with different names. -/
theorem find?_ofList {entries : List (String × α)} (nodup : (entries.map Prod.fst).Nodup)
    (name : String) : (ofList entries).find? name = entries.lookup name := by
  rw [ofList, find?_foldl_insert _ nodup, find?_empty, Option.or_none]

/-- Among entries with different names, those of the list are found. -/
theorem lookup_eq_some_iff_mem {entries : List (String × α)} (nodup : (entries.map Prod.fst).Nodup)
    {name : String} {value : α} : entries.lookup name = some value ↔ (name, value) ∈ entries := by
  constructor
  · intro h
    obtain ⟨before, after, rfl, -⟩ := List.lookup_eq_some_iff.mp h
    exact List.mem_append_right _ List.mem_cons_self
  · intro h
    obtain ⟨before, after, rfl⟩ := List.append_of_mem h
    refine List.lookup_eq_some_iff.mpr ⟨before, after, rfl, fun entry hentry => ?_⟩
    rw [List.map_append, List.nodup_append] at nodup
    have hne := nodup.2.2 entry.1 (List.mem_map_of_mem hentry) name
      (List.mem_map_of_mem (f := Prod.fst) List.mem_cons_self)
    simpa using Ne.symm hne

/-- The map of entries with different names holds exactly these. -/
theorem find?_ofList_eq_some_iff {entries : List (String × α)}
    (nodup : (entries.map Prod.fst).Nodup) {name : String} {value : α} :
    (ofList entries).find? name = some value ↔ (name, value) ∈ entries := by
  rw [find?_ofList nodup, lookup_eq_some_iff_mem nodup]

/-- Looking up a name among the entries. -/
theorem lookup_entries (m : NameMap α) (name : String) :
    m.entries.lookup name = m.find? name := by
  obtain ⟨entries, increasing⟩ := m
  show entries.lookup name = findEntry name entries
  clear increasing
  induction entries with
  | nil => rfl
  | cons entry rest ih =>
    rw [List.lookup_cons, findEntry, ih]
    by_cases hname : name = entry.1
    · simp [hname]
    · have hbeq : (name == entry.1) = false := by simpa using hname
      rw [hbeq, if_neg hname]

end TermNet.NameMap
