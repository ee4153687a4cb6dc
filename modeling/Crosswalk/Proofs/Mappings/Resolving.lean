import Crosswalk.Mappings.Reading
import Crosswalk.Patch
import Crosswalk.Proofs.Mappings.Tables

/-!
# Resolvers and tables

A resolver takes the first class that is listed under a name, and a table the last one. So the two
give a class the same name exactly if its first and its last listing do (`Mappings.resolved_alike`),
and a class whose superclass has been renamed is recognized by the base class that was resolved
on the same condition. Names repeat where a class is listed twice, but also where one class has no
name of its own in a namespace and goes by the name of another (`Mappings.resolved_differently`).
-/

namespace Crosswalk

/-! ## Base classes of screens -/

namespace Settings

/-- Base classes stay among the settings while others are added. -/
theorem mem_addScreenBase {resolver : Resolver} {s : Settings × List Record}
    {base : String × String}
    {name : String} (h : name ∈ s.1.screenBases) :
    name ∈ (addScreenBase resolver s base).1.screenBases := by
  rw [addScreenBase]
  split
  · exact List.mem_insert_of_mem h
  · exact h

/-- A known base class is among the settings by its name at runtime, if it has one. -/
theorem mem_resolveScreenBases (settings : Settings) {resolver : Resolver} {base : String × String}
    {name : String} (hbase : base ∈ knownScreenBases)
    (hname : runtimeName? resolver base.1 base.2 = some name) :
    name ∈ (settings.resolveScreenBases resolver).1.screenBases := by
  have hadded : ∀ s : Settings × List Record,
      name ∈ (addScreenBase resolver s base).1.screenBases := by
    intro s
    rw [addScreenBase, hname]
    exact List.mem_insert_self
  rw [resolveScreenBases, knownScreenBases, List.foldl_cons, List.foldl_cons, List.foldl_nil]
  rw [knownScreenBases, List.mem_cons, List.mem_singleton] at hbase
  rcases hbase with rfl | rfl
  · exact mem_addScreenBase (hadded _)
  · exact hadded _

end Settings

namespace Mappings

/-! ## First and last listings -/

/-- The classes that are listed under a name, in order. -/
def named (m : Mappings) (space : Nat) (name : String) : List ClassMapping :=
  m.classes.filter fun c => nameIn space c.names == name

variable {m : Mappings} {source target : String} {resolve : Resolver}
    {table : NameTable} {i j : Nat}

/-- A resolver answers with the first class that is listed under the name. -/
theorem resolver_eq (hi : m.space source = .ok i) (hj : m.space target = .ok j)
    (h : m.resolver target = .ok resolve) (name : String) : resolve source name =
      (m.named i (ClassName.normalize name).text).head?.map fun c => nameIn j c.names := by
  rw [resolver, map_eq_ok_iff] at h
  obtain ⟨j', hj', rfl⟩ := h
  cases hj.symm.trans hj'
  simp only [hi]
  rw [named, List.head?_filter]

/-- A table answers with the last class that is listed under the name, if there is one. -/
theorem classes_eq (h : Fills m i j table) (name : String) : table.classes[name]? =
    (m.named i name).getLast?.map fun c => nameIn j c.names := by
  rw [h.classes, lastFor?, classRows, List.filter_map, List.getLast?_map, Option.map_map]
  rfl

theorem type_of_classes {t : NameTable} {name new : String} (h : t.classes[name]? = some new) :
    t.type name = new := by
  rw [NameTable.type, h]

/-- The name of a class from a resolver is that of its first listing, and from the table that of its
last one. So the two agree on a class, and the table turns a superclass into the name that stands
for it among the base classes of screens, exactly if both listings have the same name there. -/
theorem resolved_alike {name new : String} (hresolver : m.resolver target = .ok resolve)
    (htable : m.table source target = .ok table) (hname : resolve source name = some new) :
    let old := (ClassName.normalize name).text
    ∃ i j first last, m.space source = .ok i ∧ m.space target = .ok j ∧
      (m.named i old).head? = some first ∧ (m.named i old).getLast? = some last ∧
      new = nameIn j first.names ∧ table.type old = nameIn j last.names ∧
      (table.type old = new ↔ nameIn j first.names = nameIn j last.names) ∧
      ∀ (settings : Settings) (c : ClassTree),
        (source, name) ∈ Settings.knownScreenBases → source ≠ "named" → c.superName = some old →
          let s := (settings.resolveScreenBases resolve).1
          let renamed := c.rename (Renamer.current table)
          new ∈ s.screenBases ∧
            (renamed.superName = some new ↔ nameIn j first.names = nameIn j last.names) ∧
            renamed.isScreen s = (!renamed.isMixin s && renamed.access.has Access.isPublic &&
              !renamed.access.has Access.isAbstract &&
              s.screenBases.contains (nameIn j last.names)) := by
  intro old
  obtain ⟨i, j, hi, hj, -⟩ := table_eq_ok_iff.1 htable
  have hfirst := resolver_eq hi hj hresolver name
  rw [hname] at hfirst
  obtain ⟨first, hfirst, hnew⟩ := Option.map_eq_some_iff.1 hfirst.symm
  obtain ⟨last, hlast⟩ : ∃ last, (m.named i old).getLast? = some last := by
    refine ⟨_, List.getLast?_eq_some_getLast fun hnil => ?_⟩
    rw [show (ClassName.normalize name).text = old from rfl, hnil] at hfirst
    cases hfirst
  have htype : table.type old = nameIn j last.names := by
    refine type_of_classes ?_
    rw [classes_eq (fills_of_table hi hj htable), hlast]
    rfl
  have hagree : table.type old = new ↔ nameIn j first.names = nameIn j last.names := by
    rw [htype, ← hnew]
    exact eq_comm
  refine ⟨i, j, first, last, hi, hj, hfirst, hlast, hnew.symm, htype, hagree, ?_⟩
  intro settings c hbase hspace hsuper s renamed
  have hrenamed : renamed.superName = some (nameIn j last.names) := by
    show c.superName.map table.type = _
    rw [hsuper, Option.map_some, htype]
  refine ⟨?_, ?_, ?_⟩
  · refine Settings.mem_resolveScreenBases settings hbase ?_
    rw [Settings.runtimeName?, if_neg hspace, hname]
  · rw [hrenamed, Option.some.injEq, ← hagree, htype]
  · rw [ClassTree.isScreen, hrenamed, Option.any_some]

/-- A class with a name in each of three namespaces, and another one that has no name of its own in
the second of them, where it goes by the name of the first class. -/
def borrowing : Mappings where
  namespaces := ["official", "intermediary", "runtime"]
  classes := [⟨["a", "net/minecraft/class_5641", "X"], [], []⟩,
    ⟨["net/minecraft/class_5641", "net/minecraft/class_5641", "Y"], [], []⟩]

/-- In the first namespace every class has a name of its own, and resolver and table agree. -/
theorem resolved_alike_official : ∃ resolve table, borrowing.resolver "runtime" = .ok resolve ∧
    borrowing.table "official" "runtime" = .ok table ∧ resolve "official" "a" = some "X" ∧
    table.type "a" = "X" := by
  obtain ⟨resolve, hresolver⟩ : ∃ resolve, borrowing.resolver "runtime" = .ok resolve := ⟨_, rfl⟩
  obtain ⟨table, htable⟩ : ∃ table, borrowing.table "official" "runtime" = .ok table :=
    ⟨_, table_eq_ok_iff.2 ⟨0, 2, rfl, rfl, rfl⟩⟩
  have hname : resolve "official" "a" = some "X" := by
    rw [resolver_eq (i := 0) (j := 2) rfl rfl hresolver]
    decide +kernel
  obtain ⟨i, j, first, last, hi, hj, hfirst, hlast, -, -, hagree, -⟩ :=
    resolved_alike hresolver htable hname
  cases hi
  cases hj
  have hsame : (ClassName.normalize "a").text = "a" := by decide +kernel
  rw [hsame] at hfirst hlast hagree
  cases hfirst
  cases hlast
  exact ⟨resolve, table, hresolver, htable, hname, hagree.2 rfl⟩

/-- A name that is left empty repeats the first one of its line, so two classes of a text can have
one name. Here the resolver answers with the first of them and the table with the last. -/
theorem resolved_differently : ∃ m resolve table,
    ofText ("tiny\t2\t0\tofficial\tintermediary\truntime\n" ++
      "c\ta\tnet/minecraft/class_5641\tX\nc\tnet/minecraft/class_5641\t\tY\n") = .ok m ∧
    m.resolver "runtime" = .ok resolve ∧ m.table "intermediary" "runtime" = .ok table ∧
    resolve "intermediary" "net/minecraft/class_5641" = some "X" ∧
    table.type (ClassName.normalize "net/minecraft/class_5641").text = "Y" := by
  obtain ⟨resolve, hresolver⟩ : ∃ resolve, borrowing.resolver "runtime" = .ok resolve := ⟨_, rfl⟩
  obtain ⟨table, htable⟩ : ∃ table, borrowing.table "intermediary" "runtime" = .ok table :=
    ⟨_, table_eq_ok_iff.2 ⟨1, 2, rfl, rfl, rfl⟩⟩
  refine ⟨borrowing, resolve, table, by decide +kernel, hresolver, htable, ?_, type_of_classes ?_⟩
  · rw [resolver_eq (i := 1) (j := 2) rfl rfl hresolver]
    decide +kernel
  · rw [classes_eq (fills_of_table (i := 1) (j := 2) rfl rfl htable)]
    decide +kernel

end Mappings

end Crosswalk
