import Crosswalk.Proofs.Renaming.Lookups

/-!
# Searches that mark what they visit

A search for a member forgets the supertypes of each class that it has been through. It could as
well keep them all, mark the classes that it visits, and pass over those that are marked when they
come up again (`NameTable.Visits`). Both ways it finds the same (`NameTable.nearest_eq_iff_visits`):
a class that is marked has no answer, and a search that has forgotten its supertypes passes over it,
too.
-/

namespace Crosswalk.NameTable

/-- A search among the classes of a queue finds an answer, or none, and visits no class that is
marked. -/
inductive Visits (answer : String → Option String) (supertypes : Std.HashMap String (List String)) :
    List String → List String → Option String → Prop
  | done {marked : List String} : Visits answer supertypes marked [] none
  | again {marked queue : List String} {name : String} {found : Option String}
    (hmarked : name ∈ marked) (hrest : Visits answer supertypes marked queue found) :
    Visits answer supertypes marked (name :: queue) found
  | found {marked queue : List String} {name new : String} (hfresh : name ∉ marked)
    (hanswer : answer name = some new) :
    Visits answer supertypes marked (name :: queue) (some new)
  | known {marked queue direct : List String} {name : String} {found : Option String}
    (hfresh : name ∉ marked) (hanswer : answer name = none)
    (hdirect : supertypes[name]? = some direct)
    (hrest : Visits answer supertypes (name :: marked) (queue ++ direct) found) :
    Visits answer supertypes marked (name :: queue) found
  | unknown {marked queue : List String} {name : String} {found : Option String}
    (hfresh : name ∉ marked) (hanswer : answer name = none) (hdirect : supertypes[name]? = none)
    (hrest : Visits answer supertypes (name :: marked) queue found) :
    Visits answer supertypes marked (name :: queue) found

/-- The supertypes that are left when those of the marked classes are forgotten, none of which has
an answer. -/
structure Forgets (answer : String → Option String) (supertypes : Std.HashMap String (List String))
    (marked : List String) (left : Std.HashMap String (List String)) : Prop where
  noAnswer : ∀ name ∈ marked, answer name = none
  forgotten : ∀ name ∈ marked, left[name]? = none
  others : ∀ name, name ∉ marked → left[name]? = supertypes[name]?

variable {answer : String → Option String} {supertypes left : Std.HashMap String (List String)}
  {marked queue : List String} {name : String} {found : Option String}

/-- At first nothing is marked and nothing forgotten. -/
theorem Forgets.refl : Forgets answer supertypes [] supertypes :=
  ⟨by simp, by simp, fun _ _ => rfl⟩

/-- A class without an answer is marked, and its supertypes are forgotten. -/
theorem Forgets.visit (h : Forgets answer supertypes marked left) (hanswer : answer name = none) :
    Forgets answer supertypes (name :: marked) (left.erase name) where
  noAnswer := List.forall_mem_cons.2 ⟨hanswer, h.noAnswer⟩
  forgotten other hother := by
    rw [Std.HashMap.getElem?_erase]
    split
    · rfl
    · next hne =>
      have hne : other ≠ name := fun heq => hne (by simp [heq])
      exact h.forgotten other (List.mem_of_ne_of_mem hne hother)
  others other hother := by
    rw [List.mem_cons, not_or] at hother
    rw [Std.HashMap.getElem?_erase, if_neg (by simpa using Ne.symm hother.1)]
    exact h.others other hother.2

/-- There is nothing to forget about a class whose supertypes are not known. -/
theorem Forgets.visit_unknown (h : Forgets answer supertypes marked left)
    (hanswer : answer name = none) (hdirect : left[name]? = none) :
    Forgets answer supertypes (name :: marked) left where
  noAnswer := List.forall_mem_cons.2 ⟨hanswer, h.noAnswer⟩
  forgotten := List.forall_mem_cons.2 ⟨hdirect, h.forgotten⟩
  others other hother := h.others other fun hmem => hother (List.mem_cons_of_mem _ hmem)

/-- A search that marks what it visits finds what a search that forgets finds. -/
theorem Visits.nearest_eq (h : Visits answer supertypes marked queue found)
    (hleft : Forgets answer supertypes marked left) : nearest answer left queue = found := by
  induction h generalizing left with
  | done => rw [nearest]
  | again hmarked hrest ih =>
    rw [nearest_of_unknown (hleft.noAnswer _ hmarked) (hleft.forgotten _ hmarked)]
    exact ih hleft
  | found hfresh hanswer =>
    rw [nearest]
    simp only [hanswer]
  | known hfresh hanswer hdirect hrest ih =>
    rw [← hleft.others _ hfresh] at hdirect
    rw [nearest_of_known hanswer hdirect]
    exact ih (hleft.visit hanswer)
  | unknown hfresh hanswer hdirect hrest ih =>
    rw [← hleft.others _ hfresh] at hdirect
    rw [nearest_of_unknown hanswer hdirect]
    exact ih (hleft.visit_unknown hanswer hdirect)

/-- A search that marks what it visits comes to an end. -/
theorem Forgets.visits (hleft : Forgets answer supertypes marked left) (queue : List String) :
    Visits answer supertypes marked queue (nearest answer left queue) := by
  -- The classes that are left become fewer, or the queue becomes shorter.
  induction left, queue using nearest.induct answer generalizing marked with
  | case1 left =>
    rw [nearest]
    exact .done
  | case2 left name queue new hanswer =>
    rw [nearest]
    simp only [hanswer]
    refine .found (fun hmarked => ?_) hanswer
    cases (hleft.noAnswer name hmarked).symm.trans hanswer
  | case3 left name queue hanswer direct hdirect ih =>
    rw [nearest_of_known hanswer hdirect]
    have hfresh : name ∉ marked := by
      intro hmarked
      cases (hleft.forgotten name hmarked).symm.trans hdirect
    exact .known hfresh hanswer (hleft.others name hfresh ▸ hdirect) (ih (hleft.visit hanswer))
  | case4 left name queue hanswer hdirect ih =>
    rw [nearest_of_unknown hanswer hdirect]
    by_cases hmarked : name ∈ marked
    · exact .again hmarked (ih hleft)
    · exact .unknown hmarked hanswer (hleft.others name hmarked ▸ hdirect)
        (ih (hleft.visit_unknown hanswer hdirect))

/-- To forget the supertypes of a class is as good as to mark it. -/
theorem nearest_eq_iff_visits :
    nearest answer supertypes queue = found ↔ Visits answer supertypes [] queue found := by
  constructor
  · rintro rfl
    exact Forgets.refl.visits queue
  · exact fun h => h.nearest_eq .refl

/-- So the new name of a member is what a search from its owner finds that visits no class twice. -/
theorem inherited?_eq_iff_visits {t : NameTable} {members : Std.HashMap MemberRef String}
    {m : MemberRef} (hmembers : members.isEmpty = false) : t.inherited? members m = found ↔
      Visits (fun owner => members[MemberRef.mk owner m.name m.descriptor]?)
      t.supertypes [] [m.owner]
        found := by
  rw [inherited?, if_neg (by simp [hmembers]), nearest_eq_iff_visits]

end Crosswalk.NameTable
