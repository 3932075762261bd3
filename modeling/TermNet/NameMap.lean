namespace TermNet

/-!
# Name maps — finite maps with names as keys

Variables, renamings and the fields of a suite are looked up by name and listed
in the order of their names.

* `NameMap α` — a list of entries with strictly increasing names, so that two
  maps with the same entries are equal;
* `find?`, `insert`, `insertNew`, `ofList`, `map` — the operations;
* `find?_insert` — what a map holds after `insert`.
-/

/-- Entries with strictly increasing names. -/
structure NameMap (α : Type) where
  /-- The entries in the order of their names. -/
  entries : List (String × α) := []
  /-- Every name stands once, and the names increase. -/
  increasing : entries.Pairwise (fun a b => a.1 < b.1) := by simp
deriving DecidableEq

namespace NameMap

variable {α β : Type}

/-- The map without entries. -/
def empty : NameMap α := {}

instance : Inhabited (NameMap α) := ⟨empty⟩

/-- The value that a list of entries gives to `name`. -/
def findEntry (name : String) : List (String × α) → Option α
  | [] => none
  | (key, value) :: rest => if name = key then some value else findEntry name rest

/-- The value of `name`. -/
def find? (map : NameMap α) (name : String) : Option α := findEntry name map.entries

/-- Whether `name` has a value. -/
def contains (map : NameMap α) (name : String) : Bool := (map.find? name).isSome

/-- The names in increasing order. -/
def names (map : NameMap α) : List String := map.entries.map Prod.fst

/-- Set `name` in a list of entries, keeping the names increasing. -/
def insertEntry (name : String) (value : α) : List (String × α) → List (String × α)
  | [] => [(name, value)]
  | (key, old) :: rest =>
    if name < key then (name, value) :: (key, old) :: rest
    else if name = key then (name, value) :: rest
    else (key, old) :: insertEntry name value rest

/-- An entry of the result is the new one or an old one. -/
theorem mem_insertEntry {name : String} {value : α} {entries : List (String × α)}
    {entry : String × α} (h : entry ∈ insertEntry name value entries) :
    entry = (name, value) ∨ entry ∈ entries := by
  induction entries with
  | nil => simpa [insertEntry] using h
  | cons first rest ih =>
    unfold insertEntry at h
    split at h
    · simpa using h
    · split at h
      · rcases List.mem_cons.mp h with h | h
        · exact .inl h
        · exact .inr (List.mem_cons_of_mem _ h)
      · rcases List.mem_cons.mp h with h | h
        · exact .inr (h ▸ List.mem_cons_self)
        · exact (ih h).imp_right (List.mem_cons_of_mem _)

/-- Of two different names the smaller one comes first. -/
theorem lt_of_not_lt_of_ne {a b : String} (h : ¬ a < b) (ne : a ≠ b) : b < a :=
  Decidable.byContradiction fun h' =>
    ne (String.le_antisymm (String.not_lt.mp h') (String.not_lt.mp h))

/-- Setting a name keeps the names increasing. -/
theorem insertEntry_increasing (name : String) (value : α) {entries : List (String × α)}
    (increasing : entries.Pairwise (fun a b => a.1 < b.1)) :
    (insertEntry name value entries).Pairwise (fun a b => a.1 < b.1) := by
  induction entries with
  | nil => simp [insertEntry]
  | cons first rest ih =>
    obtain ⟨above, rest_increasing⟩ := List.pairwise_cons.mp increasing
    unfold insertEntry
    split
    · rename_i lt
      refine List.pairwise_cons.mpr ⟨fun entry h => ?_, increasing⟩
      rcases List.mem_cons.mp h with rfl | h
      · exact lt
      · exact String.lt_trans lt (above entry h)
    · rename_i not_lt
      split
      · rename_i eq
        exact List.pairwise_cons.mpr ⟨fun entry h => eq ▸ above entry h, rest_increasing⟩
      · rename_i ne
        refine List.pairwise_cons.mpr ⟨fun entry h => ?_, ih rest_increasing⟩
        rcases mem_insertEntry h with rfl | h
        · exact lt_of_not_lt_of_ne not_lt ne
        · exact above entry h

/-- The map with `name` set to `value`. -/
def insert (map : NameMap α) (name : String) (value : α) : NameMap α where
  entries := insertEntry name value map.entries
  increasing := insertEntry_increasing name value map.increasing

/-- The map with `name` set to `value`, unless `name` has a value already. -/
def insertNew (map : NameMap α) (name : String) (value : α) : NameMap α :=
  if map.contains name then map else map.insert name value

/-- The map of a list of entries; of two entries with one name the later counts. -/
def ofList (entries : List (String × α)) : NameMap α :=
  entries.foldl (fun map entry => map.insert entry.1 entry.2) empty

/-- Apply `f` to every value. -/
def map (f : α → β) (m : NameMap α) : NameMap β where
  entries := m.entries.map fun entry => (entry.1, f entry.2)
  increasing := by
    rw [List.pairwise_map]
    exact m.increasing

/-- Looking up a list of entries after setting a name. -/
theorem findEntry_insertEntry (name key : String) (value : α) {entries : List (String × α)} :
    findEntry key (insertEntry name value entries) =
      if key = name then some value else findEntry key entries := by
  induction entries with
  | nil => simp [insertEntry, findEntry]
  | cons first rest ih =>
    obtain ⟨k, old⟩ := first
    unfold insertEntry
    split
    · rfl
    · split
      · rename_i eq
        subst eq
        by_cases h : key = name <;> simp [findEntry, h]
      · rename_i ne
        simp only [findEntry, ih]
        by_cases hk : key = k
        · subst hk
          simp [Ne.symm ne]
        · simp [hk]

/-- **What a map holds after `insert`:** the new value at its name, and the old
    values elsewhere. -/
theorem find?_insert (m : NameMap α) (name key : String) (value : α) :
    (m.insert name value).find? key = if key = name then some value else m.find? key :=
  findEntry_insertEntry name key value

end NameMap

end TermNet
