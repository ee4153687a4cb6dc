import Mathlib.Data.List.Basic
import Crosswalk.Mappings.Basic
import Crosswalk.Proofs.Outcome
import Crosswalk.Proofs.Renaming.Lookups

/-!
# What tables of names are filled with

A table is filled row by row, so of several rows with one key the last one counts (`lastFor?`). The
rows of the table that leads from one namespace to another are those of the classes
(`Mappings.classRows`), of the fields and of the methods (`Mappings.memberRows`), in the order in
which they are listed. Such a table knows no supertypes, so a member is found exactly where it is
listed for its owner (`Mappings.inherited?_of_empty`).
-/

namespace Crosswalk

/-! ## Rows -/

section Rows

variable {κ α : Type} [BEq κ]

/-- What the last row with a key says. -/
def lastFor? (key : κ) (rows : List (κ × α)) : Option α :=
  (rows.filter (·.1 == key)).getLast?.map Prod.snd

/-- The last row is looked for from behind. -/
theorem lastFor?_append (key : κ) (rows more : List (κ × α)) :
    lastFor? key (rows ++ more) = (lastFor? key more).or (lastFor? key rows) := by
  rw [lastFor?, List.filter_append, List.getLast?_append, lastFor?, lastFor?]
  cases (more.filter (·.1 == key)).getLast? <;> rfl

/-- In a single row there is one key. -/
theorem lastFor?_singleton (key : κ) (row : κ × α) :
    lastFor? key [row] = if row.1 == key then some row.2 else none := by
  rw [lastFor?, List.filter_singleton]
  cases row.1 == key <;> rfl

variable [LawfulBEq κ]

/-- A row says what counts if no other one has its key. -/
theorem lastFor?_of_nodup {rows : List (κ × α)} (hkeys : (rows.map Prod.fst).Nodup) {row : κ × α}
    (h : row ∈ rows) : lastFor? row.1 rows = some row.2 := by
  obtain ⟨before, behind, rfl⟩ := List.append_of_mem h
  have hbehind : lastFor? row.1 behind = none := by
    rw [lastFor?, Option.map_eq_none_iff, List.getLast?_eq_none_iff, List.filter_eq_nil_iff]
    intro other hother hsame
    rw [List.map_append, List.map_cons, List.nodup_append] at hkeys
    have hfresh := (List.nodup_cons.1 hkeys.2.1).1
    rw [← eq_of_beq hsame] at hfresh
    exact hfresh (List.mem_map_of_mem hother)
  rw [lastFor?_append, ← List.singleton_append, lastFor?_append, hbehind, lastFor?_singleton]
  simp

/-- Where there is no row, nothing is said. -/
theorem lastFor?_eq_none {key : κ} {rows : List (κ × α)} (h : ∀ row ∈ rows, row.1 ≠ key) :
    lastFor? key rows = none := by
  rw [lastFor?, Option.map_eq_none_iff, List.getLast?_eq_none_iff, List.filter_eq_nil_iff]
  exact fun row hrow hsame => h row hrow (eq_of_beq hsame)

variable [Hashable κ]

/-- A table that is filled row by row has for each key what the last row with it says. -/
theorem getElem?_foldl_insert (rows : List (κ × α)) (table : Std.HashMap κ α) (key : κ) :
    (rows.foldl (fun table row => table.insert row.1 row.2) table)[key]? =
      (lastFor? key rows).or table[key]? := by
  induction rows generalizing table with
  | nil => rfl
  | cons row rest ih =>
    rw [List.foldl_cons, ih, ← List.singleton_append, lastFor?_append, lastFor?_singleton,
      Std.HashMap.getElem?_insert]
    cases lastFor? key rest <;> cases row.1 == key <;> rfl

end Rows

/-! ## Filling a table -/

namespace NameTable

variable (t : NameTable) (rows : List (MemberRef × String))

/-- Rows of fields go into the table of fields and nowhere else. -/
theorem foldl_insertField : rows.foldl (fun t row => t.insertField row.1 row.2) t =
    { t with fields := rows.foldl (fun fields row => fields.insert row.1 row.2) t.fields } := by
  induction rows generalizing t with
  | nil => rfl
  | cons row rest ih => rw [List.foldl_cons, ih]; rfl

/-- Rows of methods go into the table of methods and nowhere else. -/
theorem foldl_insertMethod : rows.foldl (fun t row => t.insertMethod row.1 row.2) t =
    { t with methods := rows.foldl (fun methods row => methods.insert row.1 row.2) t.methods } := by
  induction rows generalizing t with
  | nil => rfl
  | cons row rest ih => rw [List.foldl_cons, ih]; rfl

end NameTable

namespace Mappings

/-- The rows of the classes. -/
def classRows (source target : Nat) (classes : List ClassMapping) : List (String × String) :=
  classes.map fun c => (nameIn source c.names, nameIn target c.names)

/-- The rows of the members of a kind. -/
def memberRows (names : Std.HashMap String String) (source target : Nat)
    (members : ClassMapping → List MemberMapping) (classes : List ClassMapping) :
    List (MemberRef × String) :=
  classes.flatMap fun c => (members c).map (listing names source target c)

/-- Classes that are added to a table add their rows. -/
theorem foldl_addClass (names : Std.HashMap String String) (source target : Nat)
    (classes : List ClassMapping) (t : NameTable) :
    classes.foldl (addClass names source target) t =
      { t with
        classes := (classRows source target classes).foldl
          (fun table row => table.insert row.1 row.2) t.classes
        fields := (memberRows names source target ClassMapping.fields classes).foldl
          (fun table row => table.insert row.1 row.2) t.fields
        methods := (memberRows names source target ClassMapping.methods classes).foldl
          (fun table row => table.insert row.1 row.2) t.methods } := by
  induction classes generalizing t with
  | nil => rfl
  | cons c rest ih =>
    rw [List.foldl_cons, ih, addClass]
    simp only [NameTable.foldl_insertField, NameTable.foldl_insertMethod, NameTable.insertClass,
      classRows, memberRows, List.map_cons, List.foldl_cons, List.flatMap_cons, List.foldl_append]

variable {m : Mappings} {source target : String} {table : NameTable}

/-- A table leads from one namespace that is there to another. -/
theorem table_eq_ok_iff : m.table source target = .ok table ↔ ∃ i j, m.space source = .ok i ∧
    m.space target = .ok j ∧ table = m.classes.foldl (addClass (m.fromFirst i) i j) .empty := by
  rw [Mappings.table, bind_eq_ok_iff]
  simp only [bind_eq_ok_iff]
  constructor
  · rintro ⟨i, hi, j, hj, h⟩
    cases h
    exact ⟨i, j, hi, hj, rfl⟩
  · rintro ⟨i, j, hi, hj, rfl⟩
    exact ⟨i, hi, j, hj, rfl⟩

/-- The rows that a table consists of. -/
structure Fills (m : Mappings) (i j : Nat) (table : NameTable) : Prop where
  classes : ∀ name, table.classes[name]? = lastFor? name (classRows i j m.classes)
  fields : ∀ r, table.fields[r]? =
    lastFor? r (memberRows (m.fromFirst i) i j ClassMapping.fields m.classes)
  methods : ∀ r, table.methods[r]? =
    lastFor? r (memberRows (m.fromFirst i) i j ClassMapping.methods m.classes)
  supertypes : table.supertypes = ∅

/-- A table that can be made is filled with the rows of its namespaces. -/
theorem fills_of_table {i j : Nat} (hi : m.space source = .ok i) (hj : m.space target = .ok j)
    (h : m.table source target = .ok table) : Fills m i j table := by
  obtain ⟨i', j', hi', hj', rfl⟩ := table_eq_ok_iff.1 h
  cases hi.symm.trans hi'
  cases hj.symm.trans hj'
  rw [foldl_addClass]
  refine ⟨fun name => ?_, fun r => ?_, fun r => ?_, rfl⟩ <;>
  · rw [getElem?_foldl_insert]
    simp [NameTable.empty]

/-- The names of the classes by those in the first namespace are rows, too. -/
theorem getElem?_fromFirst (m : Mappings) (i : Nat) (name : String) :
    (m.fromFirst i)[name]? = lastFor? name (classRows 0 i m.classes) := by
  have hrows : m.fromFirst i = (classRows 0 i m.classes).foldl
      (fun table row => table.insert row.1 row.2) ∅ := by
    rw [fromFirst, classRows, List.foldl_map]
  rw [hrows, getElem?_foldl_insert]
  simp

/-! ## Looking up a member -/

/-- Without supertypes, a member is found if it is listed for its owner. -/
theorem inherited?_of_empty {members : Std.HashMap MemberRef String}
    (hsupertypes : table.supertypes = ∅) (r : MemberRef) :
    table.inherited? members r = members[r]? := by
  rw [NameTable.inherited?]
  split
  · next hempty => rw [Std.HashMap.getElem?_of_isEmpty hempty]
  · cases hmember : members[r]? with
    | some new =>
      rw [NameTable.nearest]
      simp only [hmember]
    | none =>
      have hunknown : table.supertypes[r.owner]? = none := by simp [hsupertypes]
      rw [NameTable.nearest_of_unknown hmember hunknown, NameTable.nearest]

end Mappings

end Crosswalk
