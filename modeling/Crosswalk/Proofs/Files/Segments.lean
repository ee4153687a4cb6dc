import Mathlib.Data.List.Induction
import Crosswalk.Proofs.Files.Paths

/-!
# Paths of segments

A path that is put together from segments falls into the same segments again, as long as none of
them is empty or holds a slash, and counts them all if they are `Path.Tidy`. The directories above
such a path are the paths of fewer and fewer of its segments (`Path.chain`).
-/

namespace Crosswalk

namespace Path

/-! ## Paths of segments -/

/-- Segments as they count in a path: the current directory stands at most at the front of a
relative path. -/
structure Tidy (absolute : Bool) (l : List String) : Prop where
  segment : ∀ s ∈ l, '/' ∉ s.toList ∧ s ≠ ""
  dots : ∀ s ∈ (if absolute then l else l.tail), s ≠ "."

/-- The segments of a path are tidy. -/
theorem tidy_significant (path : String) : Tidy (isAbsolute path) (significant path) := by
  rw [significant_eq]
  have hpart : ∀ s ∈ parts path, '/' ∉ s.toList ∧ s ≠ "" := fun s hs =>
    ⟨not_mem_of_mem_segments (List.mem_filter.1 hs).1, by simpa using (List.mem_filter.1 hs).2⟩
  have hdots : ∀ s ∈ (parts path).filter (· != "."), s ≠ "." := fun s hs => by
    simpa using (List.mem_filter.1 hs).2
  by_cases hfront : isAbsolute path = false ∧ (parts path).head? = some "."
  · rw [if_pos hfront]
    refine ⟨fun s hs => ?_, by simp [hfront.1]⟩
    rcases List.mem_cons.1 hs with rfl | hs
    · decide
    · exact hpart s (List.mem_filter.1 hs).1
  · rw [if_neg hfront, List.nil_append]
    refine ⟨fun s hs => hpart s (List.mem_filter.1 hs).1, fun s hs => hdots s ?_⟩
    split at hs
    · exact hs
    · exact List.mem_of_mem_tail hs

variable {absolute : Bool} {l : List String} {s path : String}

theorem Tidy.front {more : List String} (h : Tidy absolute (l ++ more)) : Tidy absolute l := by
  refine ⟨fun s hs => h.segment s (List.mem_append_left more hs), fun s hs => h.dots s ?_⟩
  cases absolute with
  | true => exact List.mem_append_left more hs
  | false =>
    cases l with
    | nil => cases hs
    | cons first rest => exact List.mem_append_left more hs

/-- Another segment stands behind a slash. -/
theorem ofSegments_concat (absolute : Bool) (s : String) (hne : l ≠ []) :
    ofSegments absolute (l ++ [s]) = ofSegments absolute l ++ "/" ++ s := by
  rw [ofSegments, ofSegments, String.intercalate_append_of_ne_nil hne (List.cons_ne_nil s []),
    String.intercalate_singleton]
  simp only [String.append_assoc]

/-- A single segment is spelled behind the slash of the root, if there is one. -/
theorem ofSegments_singleton (absolute : Bool) (s : String) :
    ofSegments absolute [s] = (if absolute then "/" else "") ++ s := by
  rw [ofSegments, String.intercalate_singleton]

/-- A path of segments has just these parts. -/
theorem parts_ofSegments (absolute : Bool) (h : ∀ s ∈ l, '/' ∉ s.toList ∧ s ≠ "") :
    parts (ofSegments absolute l) = l ∧ isAbsolute (ofSegments absolute l) = absolute := by
  induction l using List.reverseRecOn with
  | nil => cases absolute <;> decide
  | append_singleton l s ih =>
    obtain ⟨hslash, hs⟩ := h s (List.mem_append_right l (List.mem_singleton_self s))
    obtain ⟨habsolute, hpart⟩ := parts_of_segment hslash hs
    obtain ⟨hparts, hfront⟩ := ih fun s hs => h s (List.mem_append_left _ hs)
    by_cases hne : l = []
    · subst hne
      rw [List.nil_append, ofSegments_singleton]
      cases absolute with
      | false => simpa using ⟨hpart, habsolute⟩
      | true =>
        have hroot : "/" ++ s = "" ++ "/" ++ s := by simp
        rw [if_pos rfl, isAbsolute_append (by decide), hroot, parts_append, hpart]
        exact ⟨rfl, by decide⟩
    · have hfull : ofSegments absolute l ≠ "" := by
        intro hempty
        rw [hempty] at hparts
        exact hne hparts.symm
      rw [ofSegments_concat absolute s hne, parts_append, hparts, hpart, String.append_assoc,
        isAbsolute_append hfull, hfront]
      exact ⟨rfl, rfl⟩

/-- A path of some segments is not empty. -/
theorem ofSegments_ne_empty (absolute : Bool) (h : ∀ s ∈ l, '/' ∉ s.toList ∧ s ≠ "")
    (hne : l ≠ []) :
    ofSegments absolute l ≠ "" := by
  intro hempty
  have hparts := (parts_ofSegments absolute h).1
  rw [hempty] at hparts
  exact hne hparts.symm

/-- A path of tidy segments has those segments. -/
theorem significant_ofSegments (h : Tidy absolute l) : significant (ofSegments absolute l) = l := by
  obtain ⟨hparts, habsolute⟩ := parts_ofSegments absolute h.segment
  have hdots := h.dots
  rw [significant_eq, hparts, habsolute]
  cases absolute with
  | true =>
    rw [if_neg (by simp), List.nil_append, List.filter_eq_self]
    exact fun s hs => by simpa using hdots s hs
  | false =>
    cases l with
    | nil => rfl
    | cons first rest =>
      have hrest : rest.filter (· != ".") = rest := List.filter_eq_self.2 fun s hs => by
        simpa using hdots s hs
      by_cases hfirst : first = "."
      · simp [hfirst, hrest]
      · simp [hfirst, hrest]

/-- A path of segments does not end with a slash. -/
theorem getLast?_ofSegments (h : ∀ s ∈ l, '/' ∉ s.toList ∧ s ≠ "") (hne : l ≠ []) :
    (ofSegments absolute l).toList.getLast? ≠ some '/' := by
  obtain ⟨front, s, rfl⟩ := (List.eq_nil_or_concat' l).resolve_left hne
  obtain ⟨hslash, hs⟩ := h s (List.mem_append_right front (List.mem_singleton_self s))
  have hchars : s.toList ≠ [] := by simpa using hs
  have hend : ∃ more, ofSegments absolute (front ++ [s]) = more ++ s := by
    by_cases hfront : front = []
    · subst hfront
      exact ⟨_, ofSegments_singleton absolute s⟩
    · exact ⟨_, ofSegments_concat absolute s hfront⟩
  obtain ⟨more, hmore⟩ := hend
  rw [hmore, String.toList_append, List.getLast?_append_of_ne_nil _ hchars]
  exact fun hlast => hslash (List.mem_of_getLast? hlast)

/-! ## Directories above -/

/-- The path of segments and those of the directories above it, the nearest one first. -/
def chain (absolute : Bool) (l : List String) : List String :=
  (List.range (l.length + 1)).reverse.map fun n => ofSegments absolute (l.take n)

/-- The paths above are those of the shorter beginnings. -/
theorem chain_eq_cons (absolute : Bool) (l : List String) : chain absolute l =
    ofSegments absolute l ::
      (List.range l.length).reverse.map fun n => ofSegments absolute (l.take n) := by
  rw [chain, List.range_succ, List.reverse_append, List.reverse_singleton, List.singleton_append,
    List.map_cons, List.take_length]

/-- A path with one more segment has one more path above it. -/
theorem chain_concat (absolute : Bool) (l : List String) (s : String) :
    chain absolute (l ++ [s]) = ofSegments absolute (l ++ [s]) :: chain absolute l := by
  rw [chain_eq_cons, List.length_append, List.length_singleton, chain]
  refine congrArg _ (List.map_congr_left fun n hn => ?_)
  rw [List.mem_reverse, List.mem_range] at hn
  rw [List.take_append_of_le_length (by omega)]

/-- The paths above a path are those of all segments but the last one. -/
theorem above_of_significant (h : significant path = l ++ [s]) :
    above path = chain (isAbsolute path) l := by
  rw [above, chain, h, List.length_append, List.length_singleton]
  refine List.map_congr_left fun n hn => ?_
  rw [List.mem_reverse, List.mem_range] at hn
  rw [List.take_append_of_le_length (by omega)]

/-- Behind the path of segments come the directories above it. -/
theorem chain_of_tidy (h : Tidy absolute l) :
    chain absolute l = ofSegments absolute l :: above (ofSegments absolute l) := by
  rw [above, significant_ofSegments h, (parts_ofSegments absolute h.segment).2]
  exact chain_eq_cons absolute l

end Path

end Crosswalk
