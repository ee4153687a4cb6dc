import Crosswalk.Proofs.Renaming.Lookups

/-!
# The nearest answer

A search for a member goes through the owner and its supertypes, the supertypes of those, and so
on, and forgets each class that it has been through. What it forgets can be reached again in more
steps only, so a search finds an answer whenever some class above the owner has one, and no class
with an answer is nearer than the one it finds (`NameTable.inherited?_nearest`). That holds of
every table of supertypes, whether classes are above themselves in it or not.
-/

namespace Crosswalk

namespace NameTable

/-! ## Steps to supertypes -/

/-- `Above supertypes n name top`: it takes `n` steps, each to a direct supertype, to get from the
class `name` to the class `top`. -/
inductive Above (supertypes : Std.HashMap String (List String)) : Nat → String → String → Prop
  | refl (name : String) : Above supertypes 0 name name
  | step {n : Nat} {name next top : String} {direct : List String}
    (hdirect : supertypes[name]? = some direct) (hnext : next ∈ direct)
    (habove : Above supertypes n next top) : Above supertypes (n + 1) name top

section

variable {supertypes : Std.HashMap String (List String)} {name start top : String} {n : Nat}

/-- No class is above one whose supertypes are unknown. -/
theorem Above.eq_of_unknown (h : Above supertypes n name top)
    (hunknown : supertypes[name]? = none) :
    top = name := by
  cases h with
  | refl => rfl
  | step hdirect _ _ => cases hunknown.symm.trans hdirect

/-- What is above a class where less is known, is above it anyway. -/
theorem Above.of_erase {known : String} (h : Above (supertypes.erase known) n name top) :
    Above supertypes n name top := by
  induction h with
  | refl name => exact .refl name
  | step hdirect hnext _ ih =>
    rw [Std.HashMap.getElem?_erase] at hdirect
    split at hdirect
    · cases hdirect
    · exact .step hdirect hnext ih

/-- Steps that lead through a known class lead on from one of its supertypes, and fewer of them do;
all other steps can be taken without knowing the class. -/
theorem Above.erase_or {direct : List String} (hknown : supertypes[name]? = some direct)
    (h : Above supertypes n start top) : Above (supertypes.erase name) n start top ∨
      ∃ next ∈ direct, ∃ k < n, Above (supertypes.erase name) k next top := by
  induction h with
  | refl start => exact .inl (.refl start)
  | @step n start next top direct' hdirect hnext _ ih =>
    rcases ih with hwithout | ⟨next', hnext', k, hk, hwithout⟩
    · by_cases hsame : name = start
      · -- The last visit to the class is the one to count from.
        subst hsame
        cases hknown.symm.trans hdirect
        exact .inr ⟨next, hnext, n, Nat.lt_succ_self n, hwithout⟩
      · refine .inl (.step ?_ hnext hwithout)
        rw [Std.HashMap.getElem?_erase, if_neg (by simpa using hsame)]
        exact hdirect
    · exact .inr ⟨next', hnext', k, Nat.lt_succ_of_lt hk, hwithout⟩

end

/-! ## Queues -/

/-- From the classes of a queue, each with the steps that led to it, it takes `n` steps in all to
the class `top`. -/
def Reaches (supertypes : Std.HashMap String (List String)) (levels : List (String × Nat)) (n : Nat)
    (top : String) : Prop :=
  ∃ item ∈ levels, ∃ k, Above supertypes k item.1 top ∧ item.2 + k = n

/-- The classes of a queue come in the order of the steps that led to them, and at most one more
step led to the last than to the first. -/
structure Layered (levels : List (String × Nat)) : Prop where
  sorted : levels.Pairwise fun item other => item.2 ≤ other.2
  close : ∀ item ∈ levels, ∀ other ∈ levels, item.2 ≤ other.2 + 1

section

variable {supertypes : Std.HashMap String (List String)} {levels : List (String × Nat)}
  {name top : String} {depth n : Nat}

theorem Layered.tail {item : String × Nat} (h : Layered (item :: levels)) : Layered levels where
  sorted := h.sorted.of_cons
  close first hfirst second hsecond :=
    h.close first (List.mem_cons_of_mem _ hfirst) second (List.mem_cons_of_mem _ hsecond)

/-- The first class of a queue takes the fewest steps. -/
theorem Layered.head_le {item : String × Nat} (h : Layered (item :: levels)) {other : String × Nat}
    (hother : other ∈ item :: levels) : item.2 ≤ other.2 := by
  rcases List.mem_cons.1 hother with rfl | hmem
  · exact Nat.le_refl _
  · exact List.rel_of_pairwise_cons h.sorted hmem

/-- Supertypes of the first class of a queue can join its end. -/
theorem Layered.push (h : Layered ((name, depth) :: levels)) (direct : List String) :
    Layered (levels ++ direct.map fun next => (next, depth + 1)) := by
  have hlow : ∀ item ∈ levels ++ direct.map fun next => (next, depth + 1), depth ≤ item.2 := by
    intro item hitem
    rcases List.mem_append.1 hitem with hmem | hmem
    · exact h.head_le (List.mem_cons_of_mem _ hmem)
    · obtain ⟨next, -, rfl⟩ := List.mem_map.1 hmem
      exact Nat.le_succ depth
  have hhigh : ∀ item ∈ levels ++ direct.map fun next => (next, depth + 1), item.2 ≤ depth + 1 := by
    intro item hitem
    rcases List.mem_append.1 hitem with hmem | hmem
    · exact h.close item (List.mem_cons_of_mem _ hmem) (name, depth) List.mem_cons_self
    · obtain ⟨next, -, rfl⟩ := List.mem_map.1 hmem
      exact Nat.le_refl _
  refine ⟨List.pairwise_append.2 ⟨h.sorted.of_cons, ?_, ?_⟩, ?_⟩
  · exact List.pairwise_map.2 (List.pairwise_of_forall fun _ _ => Nat.le_refl _)
  · intro item hitem other hother
    obtain ⟨next, -, rfl⟩ := List.mem_map.1 hother
    exact hhigh item (List.mem_append_left _ hitem)
  · intro item hitem other hother
    exact Nat.le_trans (hhigh item hitem) (Nat.succ_le_succ (hlow other hother))

/-- What the rest of a queue reaches, the queue reaches in as many steps. -/
theorem Reaches.cons {item : String × Nat} (h : Reaches supertypes levels n top) :
    Reaches supertypes (item :: levels) n top := by
  obtain ⟨other, hother, k, habove, hsteps⟩ := h
  exact ⟨other, List.mem_cons_of_mem _ hother, k, habove, hsteps⟩

/-- A queue reaches what it reaches once its first class has made way for the supertypes of it. -/
theorem Reaches.of_push {direct : List String} (hknown : supertypes[name]? = some direct)
    (h : Reaches (supertypes.erase name)
      (levels ++ direct.map fun next => (next, depth + 1)) n top) :
    Reaches supertypes ((name, depth) :: levels) n top := by
  obtain ⟨item, hitem, k, habove, hsteps⟩ := h
  rcases List.mem_append.1 hitem with hmem | hmem
  · exact ⟨item, List.mem_cons_of_mem _ hmem, k, habove.of_erase, hsteps⟩
  · obtain ⟨next, hnext, rfl⟩ := List.mem_map.1 hmem
    refine ⟨(name, depth), List.mem_cons_self, k + 1, .step hknown hnext habove.of_erase, ?_⟩
    dsimp only at hsteps ⊢
    omega

/-- What a queue reaches, apart from its first class, is reached in no more steps once that class
has made way for the supertypes of it and is forgotten. -/
theorem Reaches.push {direct : List String} (hlayered : Layered ((name, depth) :: levels))
    (hknown : supertypes[name]? = some direct) (hother : top ≠ name)
    (h : Reaches supertypes ((name, depth) :: levels) n top) : ∃ k ≤ n,
      Reaches (supertypes.erase name)
      (levels ++ direct.map fun next => (next, depth + 1)) k top := by
  obtain ⟨item, hitem, k, habove, rfl⟩ := h
  rcases habove.erase_or hknown with hwithout | ⟨next, hnext, k', hk', hwithout⟩
  · rcases List.mem_cons.1 hitem with rfl | hmem
    · exact absurd (hwithout.eq_of_unknown Std.HashMap.getElem?_erase_self) hother
    · exact ⟨_, Nat.le_refl _, item, List.mem_append_left _ hmem, k, hwithout, rfl⟩
  · -- To come through the first class takes as many steps as led to it, or more.
    have hdepth : depth ≤ item.2 := hlayered.head_le hitem
    refine ⟨depth + 1 + k', by omega, (next, depth + 1), ?_, k', hwithout, rfl⟩
    exact List.mem_append_right _ (List.mem_map.2 ⟨next, hnext, rfl⟩)

/-- A first class without supertypes can leave the queue. -/
theorem Reaches.of_cons (hunknown : supertypes[name]? = none) (hother : top ≠ name)
    (h : Reaches supertypes ((name, depth) :: levels) n top) : Reaches supertypes levels n top := by
  obtain ⟨item, hitem, k, habove, hsteps⟩ := h
  rcases List.mem_cons.1 hitem with rfl | hmem
  · exact absurd (habove.eq_of_unknown hunknown) hother
  · exact ⟨item, hmem, k, habove, hsteps⟩

end

/-! ## The search -/

/-- The answer is that of a class at the least distance of all that have one, and it is missing only
if no class has one. -/
def Foremost (answer : String → Option String) (reached : Nat → String → Prop) :
    Option String → Prop
  | some new => ∃ n top, reached n top ∧ answer top = some new ∧
      ∀ k other, reached k other → answer other ≠ none → n ≤ k
  | none => ∀ k other, reached k other → answer other = none

/-- Classes need not be looked at if those with an answer are reached as soon without them. -/
theorem Foremost.of_fewer {answer : String → Option String} {reached reached' : Nat → String → Prop}
    {outcome : Option String} (h : Foremost answer reached' outcome)
    (hsound : ∀ n top, reached' n top → reached n top)
    (hcomplete : ∀ n top, reached n top → answer top ≠ none → ∃ k ≤ n, reached' k top) :
    Foremost answer reached outcome := by
  cases outcome with
  | some new =>
    obtain ⟨n, top, hreached, hanswer, hleast⟩ := h
    refine ⟨n, top, hsound n top hreached, hanswer, fun m other hother hanswer' => ?_⟩
    obtain ⟨k, hk, hother'⟩ := hcomplete m other hother hanswer'
    exact Nat.le_trans (hleast k other hother' hanswer') hk
  | none =>
    intro m other hother
    by_contra hanswer
    obtain ⟨k, -, hother'⟩ := hcomplete m other hother hanswer
    exact hanswer (h k other hother')

/-- A search finds the answer of a nearest class that the queue reaches. -/
theorem foremost_nearest (answer : String → Option String)
    (supertypes : Std.HashMap String (List String)) (levels : List (String × Nat))
    (hlayered : Layered levels) : Foremost answer (Reaches supertypes levels)
      (nearest answer supertypes (levels.map Prod.fst)) := by
  generalize hqueue : levels.map Prod.fst = queue
  -- The queue has the classes layer by layer, so the first answer is one of the nearest.
  induction supertypes, queue using nearest.induct answer generalizing levels with
  | case1 supertypes =>
    rw [nearest]
    rw [List.map_eq_nil_iff] at hqueue
    subst hqueue
    rintro k other ⟨item, hitem, -⟩
    cases hitem
  | case2 supertypes name queue new hanswer =>
    rw [nearest, hanswer]
    obtain ⟨⟨_, depth⟩, levels, rfl, rfl, rfl⟩ := List.map_eq_cons_iff.1 hqueue
    refine ⟨depth, _, ⟨_, List.mem_cons_self, 0, .refl _, rfl⟩, hanswer, ?_⟩
    rintro k other ⟨item, hitem, steps, -, rfl⟩ -
    exact Nat.le_trans (hlayered.head_le hitem) (Nat.le_add_right _ _)
  | case3 supertypes name queue hanswer direct hknown ih =>
    obtain ⟨⟨_, depth⟩, levels, rfl, rfl, rfl⟩ := List.map_eq_cons_iff.1 hqueue
    rw [nearest_of_known hanswer hknown]
    have hnames : (levels ++ direct.map fun next => (next, depth + 1)).map Prod.fst =
        levels.map Prod.fst ++ direct := by
      simp [Function.comp_def]
    have hrest := ih _ (hlayered.push direct) hnames
    refine hrest.of_fewer (fun _ _ => .of_push hknown) fun n top hreached hsome => ?_
    refine hreached.push hlayered hknown fun hsame => hsome ?_
    rw [hsame]
    exact hanswer
  | case4 supertypes name queue hanswer hunknown ih =>
    obtain ⟨⟨_, depth⟩, levels, rfl, rfl, rfl⟩ := List.map_eq_cons_iff.1 hqueue
    rw [nearest_of_unknown hanswer hunknown]
    have hrest := ih levels hlayered.tail rfl
    refine hrest.of_fewer (fun _ _ => .cons) fun n top hreached hsome => ?_
    refine ⟨n, Nat.le_refl n, hreached.of_cons hunknown fun hsame => hsome ?_⟩
    rw [hsame]
    exact hanswer

/-! ## Members -/

/-- A queue of one class that no step has led to reaches what is above the class. -/
theorem reaches_singleton {supertypes : Std.HashMap String (List String)} {owner top : String}
    {n : Nat} : Reaches supertypes [(owner, 0)] n top ↔ Above supertypes n owner top := by
  simp [Reaches]

/-- A search for a member finds the entry of a nearest class that has one. -/
theorem foremost_inherited? (t : NameTable) (members : Std.HashMap MemberRef String)
    (m : MemberRef) :
    Foremost (fun owner => members[MemberRef.mk owner m.name m.descriptor]?)
      (fun n top => Above t.supertypes n m.owner top) (t.inherited? members m) := by
  rw [inherited?]
  split
  · next hempty =>
    intro k other _
    exact Std.HashMap.getElem?_of_isEmpty hempty
  · have hlayered : Layered [(m.owner, 0)] := ⟨List.pairwise_singleton _ _, by simp⟩
    have hnearest := foremost_nearest
      (fun owner => members[MemberRef.mk owner m.name m.descriptor]?) t.supertypes [(m.owner, 0)]
      hlayered
    exact hnearest.of_fewer (fun _ _ => reaches_singleton.1)
      fun n top habove _ => ⟨n, Nat.le_refl n, reaches_singleton.2 habove⟩

/-- A member has an inherited name exactly if its owner or some class above it, whatever the steps
that lead there, has an entry for a member of that name and descriptor. The name is then that of an
entry of such a class, and no class with such an entry is fewer steps away from the owner. -/
theorem inherited?_nearest (t : NameTable) (members : Std.HashMap MemberRef String)
    (m : MemberRef) :
    ((t.inherited? members m).isSome = true ↔ ∃ n owner,
      Above t.supertypes n m.owner owner ∧ MemberRef.mk owner m.name m.descriptor ∈ members) ∧
    ∀ new, t.inherited? members m = some new → ∃ n owner,
      Above t.supertypes n m.owner owner ∧
      members[MemberRef.mk owner m.name m.descriptor]? = some new ∧
      ∀ k other, Above t.supertypes k m.owner other →
        MemberRef.mk other m.name m.descriptor ∈ members → n ≤ k := by
  have hmem : ∀ other, members[MemberRef.mk other m.name m.descriptor]? ≠ none ↔
      MemberRef.mk other m.name m.descriptor ∈ members := by
    intro other
    rw [Std.HashMap.mem_iff_isSome_getElem?, Option.isSome_iff_ne_none]
  have hforemost := foremost_inherited? t members m
  cases hinherited : t.inherited? members m with
  | some new =>
    rw [hinherited] at hforemost
    obtain ⟨n, owner, habove, hentry, hleast⟩ := hforemost
    have hmember := (hmem owner).1 fun hnone => Option.some_ne_none new (hentry.symm.trans hnone)
    refine ⟨iff_of_true rfl ⟨n, owner, habove, hmember⟩, ?_⟩
    rintro _ ⟨⟩
    exact ⟨n, owner, habove, hentry,
      fun k other hother hmember => hleast k other hother ((hmem other).2 hmember)⟩
  | none =>
    rw [hinherited] at hforemost
    refine ⟨iff_of_false (by simp) ?_, by simp⟩
    rintro ⟨n, owner, habove, hmember⟩
    exact (hmem owner).2 hmember (hforemost n owner habove)

end NameTable

end Crosswalk
