import Mathlib.Data.List.Infix
import Crosswalk.Proofs.Names.Nesting
import Crosswalk.Renaming.NameTable

/-!
# Nested classes and the classes around them

A table gives a nested class without a row of its own the name that goes with the class around it,
if that one has a row. A class further inside keeps its name instead, though the class around it may
have got a new one by going with another. So nested classes follow the outermost class over one
level, and over several only where there is no new name to follow (`NameTable.follows_iff`,
`NameTable.left_behind`).
-/

namespace Crosswalk.NameTable

open Nested

variable {t : NameTable} {outer inner : String}

/-- A nested class without a row goes with the class around it, if that one has a row. -/
theorem type_join (hinner : '$' ∉ inner.toList) (hrow : t.classes[join outer inner]? = none) :
    t.type (join outer inner) = join (t.classes[outer]?.getD outer) inner := by
  rw [NameTable.type, hrow, split?_eq_some_iff.2 ⟨rfl, hinner⟩]
  cases houter : t.classes[outer]? <;> simp only [houter] <;> rfl

/-- A nested class goes with the class around it if that one has a row, or keeps its name itself. -/
theorem type_join_iff (hinner : '$' ∉ inner.toList) (hrow : t.classes[join outer inner]? = none) :
    t.type (join outer inner) = join (t.type outer) inner ↔
      outer ∈ t.classes ∨ t.type outer = outer := by
  rw [type_join hinner hrow, join_eq_join_iff, Std.HashMap.mem_iff_isSome_getElem?]
  cases houter : t.classes[outer]? with
  | some new =>
    refine iff_of_true ?_ (.inl rfl)
    rw [NameTable.type, houter, Option.getD_some]
  | none => simp [eq_comm]

/-- A class several levels inside another one, none of which has a row, keeps its name. -/
theorem type_deep_of_two_le {inners : List String} (hlevels : 2 ≤ inners.length)
    (hplain : ∀ inner ∈ inners, '$' ∉ inner.toList)
    (hrows : ∀ levels, levels <+: inners → levels ≠ [] → t.classes[deep outer levels]? = none) :
    t.type (deep outer inners) = deep outer inners := by
  obtain ⟨levels, inner, rfl⟩ : ∃ levels inner, inners = levels ++ [inner] :=
    ⟨_, _, (List.dropLast_concat_getLast (List.ne_nil_of_length_pos (by omega))).symm⟩
  have houter : t.classes[deep outer levels]? = none := by
    refine hrows levels (List.prefix_append _ _) fun hnil => ?_
    simp [hnil] at hlevels
  have hrow := hrows _ List.prefix_rfl (List.concat_ne_nil _ _)
  rw [deep_concat] at hrow ⊢
  rw [type_join (hplain inner (by simp)) hrow, houter, Option.getD_none]

/-- A nested class without a row follows the class around it exactly if that one has a row or keeps
its name. So over several levels without rows, it follows exactly if the outermost class keeps its
name. -/
theorem follows_iff (t : NameTable) (outer : String) :
    (∀ inner, '$' ∉ inner.toList → t.classes[join outer inner]? = none →
      (t.type (join outer inner) = join (t.type outer) inner ↔
        outer ∈ t.classes ∨ t.type outer = outer)) ∧
    ∀ inners, 2 ≤ inners.length → (∀ inner ∈ inners, '$' ∉ inner.toList) →
      (∀ levels, levels <+: inners → levels ≠ [] → t.classes[deep outer levels]? = none) →
      (t.type (deep outer inners) = deep (t.type outer) inners ↔ t.type outer = outer) := by
  refine ⟨fun inner => type_join_iff, fun inners hlevels hplain hrows => ?_⟩
  rw [type_deep_of_two_le hlevels hplain hrows, deep_eq_deep_iff]
  exact eq_comm

/-- A table with one row. -/
def single (old new : String) : NameTable :=
  empty.insertClass old new

/-- There is one class in the table. -/
theorem classes_single (old new name : String) :
    (single old new).classes[name]? = if old = name then some new else none := by
  simp [single, insertClass, empty, Std.HashMap.getElem?_insert]

/-- The class and the classes nested in it get other names. -/
theorem type_single (old new name : String) : (single old new).type name =
    if old = name then new
    else
      match split? name with
      | some (outer, inner) => if old = outer then join new inner else name
      | none => name := by
  simp only [NameTable.type, classes_single]
  by_cases hname : old = name
  · simp only [if_pos hname]
  · simp only [if_neg hname]
    cases hsplit : split? name with
    | none => rfl
    | some parts =>
      by_cases houter : old = parts.1
      · simp only [if_pos houter]
      · simp only [if_neg houter]

/-- The class directly inside a class with a row follows it, and the one inside that does not. -/
theorem follows_iff_single :
    (single "A" "N").type (join "A" "B") = join "N" "B" ∧
      (single "A" "N").type (deep "A" ["B", "C"]) ≠ deep "N" ["B", "C"] := by
  obtain ⟨hone, hmore⟩ := follows_iff (single "A" "N") "A"
  have hrow : (single "A" "N").type "A" = "N" := by rw [type_single]; rfl
  rw [hrow] at hone hmore
  refine ⟨(hone "B" (by decide) ?_).2 (.inl ?_), fun h => ?_⟩
  · rw [classes_single]
    decide
  · rw [Std.HashMap.mem_iff_isSome_getElem?, classes_single]
    rfl
  · have hkept := (hmore ["B", "C"] (Nat.le_refl 2) (by decide) fun levels hlevels hne => ?_).1 h
    · exact absurd hkept (by decide)
    · rw [classes_single]
      rw [← List.mem_inits] at hlevels
      revert hlevels hne levels
      decide

/-- The class around another one may be renamed and the inner one not. In a signature the inner one
is, because its simple name is written behind the new one of the class around it. -/
theorem left_behind : ∃ t : NameTable, t.classes[join "A$B" "C"]? = none ∧
    t.type "A$B" = "N$B" ∧ t.type (join "A$B" "C") = "A$B$C" ∧
    t.type (join "A$B" "C") ≠ join (t.type "A$B") "C" ∧
    Signature.map t.type "LA<TT;>.B.C;" = "LN<TT;>.B.C;" := by
  refine ⟨single "A" "N", by rw [classes_single]; decide, ?_⟩
  rw [funext (type_single "A" "N")]
  decide +kernel

end Crosswalk.NameTable
