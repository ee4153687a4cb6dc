import Mathlib.Data.List.Basic
import Crosswalk.Names.Nested

/-!
# Names of nested classes

Taking a name apart and putting it together are inverse to each other (`split?_eq_some_iff`), and so
are putting a name behind another one and taking that one off (`inside?_eq_some_iff`). `deep` puts
together the name of a class that lies any number of levels inside another one.
-/

namespace Crosswalk.Nested

variable {name outer outer' inner : String}

@[simp] theorem toList_join :
    (join outer inner).toList = outer.toList ++ '$' :: inner.toList := by
  simp [join]

/-- The last dollar sign tells the outer name. -/
theorem join_eq_join_iff : join outer inner = join outer' inner ↔ outer = outer' := by
  rw [← String.toList_inj, toList_join, toList_join, List.append_left_inj, String.toList_inj]

/-- The parts of a name give it back, and there is no dollar sign in the last one. -/
theorem split?_eq_some_iff :
    split? name = some (outer, inner) ↔ name = join outer inner ∧ '$' ∉ inner.toList := by
  rw [split?]
  constructor
  · intro h
    split at h
    · next c before hrest =>
      cases h
      have hdollar : c = '$' := by
        have hhead := List.head?_dropWhile_not (· ≠ '$') name.toList.reverse
        rw [hrest] at hhead
        simpa using hhead
      have hparts := List.takeWhile_append_dropWhile (p := (· ≠ '$')) (l := name.toList.reverse)
      rw [hrest, hdollar, ← List.reverse_eq_iff, List.reverse_append] at hparts
      refine ⟨String.toList_inj.1 (hparts.symm.trans ?_), fun hmem => ?_⟩
      · simp
      · rw [String.toList_ofList, List.mem_reverse] at hmem
        have hletter := List.all_eq_true.1 List.all_takeWhile _ hmem
        simp at hletter
    · cases h
  · rintro ⟨rfl, hinner⟩
    have hletters : ∀ c ∈ inner.toList.reverse, decide (c ≠ '$') = true := by
      intro c hc
      refine decide_eq_true fun h => hinner ?_
      rwa [h, List.mem_reverse] at hc
    have hbackwards : (join outer inner).toList.reverse =
        inner.toList.reverse ++ '$' :: outer.toList.reverse := by simp
    simp only [hbackwards, List.dropWhile_append_of_pos hletters,
      List.takeWhile_append_of_pos hletters]
    simp

/-- What stands inside a class is what follows its name and a dollar sign. -/
theorem inside?_eq_some_iff : inside? outer name = some inner ↔ name = join outer inner := by
  rw [inside?, Option.map_eq_some_iff]
  simp only [List.isPrefixOf?_eq_some_iff_append_eq]
  constructor
  · rintro ⟨rest, hrest, rfl⟩
    rw [← String.toList_inj, ← hrest]
    simp
  · rintro rfl
    exact ⟨inner.toList, by simp, by simp⟩

@[simp] theorem inside?_join : inside? outer (join outer inner) = some inner :=
  inside?_eq_some_iff.2 rfl

/-! ## Several levels -/

/-- The name of a class inside a class inside another one, and so on, from the outside in. -/
def deep (outer : String) (inners : List String) : String :=
  inners.foldl join outer

@[simp] theorem deep_nil : deep outer [] = outer := rfl

@[simp] theorem deep_concat (inners : List String) :
    deep outer (inners ++ [inner]) = join (deep outer inners) inner := by
  rw [deep, deep, List.foldl_append, List.foldl_cons, List.foldl_nil]

/-- The name of the outermost class can be told from that of a nested one. -/
theorem deep_eq_deep_iff {inners : List String} :
    deep outer inners = deep outer' inners ↔ outer = outer' := by
  induction inners generalizing outer outer' with
  | nil => rfl
  | cons inner inners ih =>
    rw [deep, deep, List.foldl_cons, List.foldl_cons]
    exact ih.trans join_eq_join_iff

end Crosswalk.Nested
