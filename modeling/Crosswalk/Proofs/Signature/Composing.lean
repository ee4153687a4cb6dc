import Crosswalk.Proofs.Signature.Rewriting

/-!
# Two changes of names in a signature

Whatever a text looks like, no name that is read from it holds a character that ends names
(`plain_of_mem_names`). So a signature that has got names which hold none of these characters either
is a signature again, and changing its names twice is changing them at once (`map_map`). Classes
inside other ones have to stay inside these, since only their simple names are written.
-/

namespace Crosswalk.Signature

/-! ## Plain names -/

theorem plain_empty : Plain "" := List.forall_mem_nil _

/-- A plain name stays plain with another letter that ends no name. -/
theorem plain_push {name : String} (h : Plain name) {c : Char} (hc : isEnd c = false) :
    Plain (name.push c) := by
  unfold Plain at h ⊢
  rw [String.toList_push, List.forall_mem_append, List.forall_mem_singleton]
  refine ⟨h, ?_⟩
  simpa [isEnd, and_assoc] using hc

/-- A nested name is plain if both parts are. -/
theorem plain_join {outside simple : String} (ho : Plain outside) (hs : Plain simple) :
    Plain (Nested.join outside simple) := by
  unfold Plain at ho hs ⊢
  rw [Nested.toList_join, List.forall_mem_append, List.forall_mem_cons]
  exact ⟨ho, by decide, hs⟩

/-! ## The names in a state -/

/-- The name that is being read, and the names that may become part of one later. -/
def State.names : State → List String
  | .start | .body | .parameters | .colon | .broken => []
  | .type around | .variable around => around.classes
  | .className name around | .afterClass name around | .arguments name around =>
    name :: around.classes
  | .simpleName outside simple around => outside :: simple :: around.classes

/-- Behind a type only the open classes are named. -/
theorem names_behind (around : Context) : (State.behind around).names ⊆ around.classes := by
  rw [State.behind]
  split
  · next name classes h =>
    rw [h]
    exact List.Subset.refl _
  · split <;> exact List.nil_subset _

/-- At the start of a type only a name without letters is new. -/
theorem names_type? {around : Context} {c : Char} {s : State} (h : State.type? around c = some s) :
    s.names ⊆ "" :: around.classes := by
  rw [State.type?] at h
  split at h
  · cases h
    exact List.subset_cons_of_subset _ (names_behind around)
  · split at h
    · cases h
      exact List.subset_cons_self _ _
    · split at h
      · cases h
        exact List.subset_cons_self _ _
      · split at h
        · cases h
          exact List.Subset.refl _
        · cases h

theorem names_inBody (c : Char) : (State.inBody c).names ⊆ [""] := by
  rw [State.inBody]
  split
  · exact List.nil_subset _
  · cases h : State.type? ⟨false, []⟩ c with
    | some s => exact names_type? h
    | none => exact List.nil_subset _

/-- Behind a failure there are no names any more. -/
theorem names_failed (around : Context) (c : Char) : (State.failed around c).names ⊆ [""] := by
  rw [State.failed]
  split
  · exact names_inBody c
  · exact List.nil_subset _

/-- Within a type only the open classes are named. -/
theorem names_inType (around : Context) (c : Char) :
    (State.inType around c).names ⊆ "" :: around.classes := by
  rw [State.inType]
  cases h : State.type? around c with
  | some s => exact names_type? h
  | none =>
    exact List.Subset.trans (names_failed around c)
      (List.cons_subset_cons _ (List.nil_subset _))

/-- Type parameters name no class. -/
theorem names_inParameters (c : Char) : (State.inParameters c).names = [] := by
  rw [State.inParameters]
  split
  · rfl
  · split <;> rfl

/-- A class names itself besides. -/
theorem names_inClass (name : String) (around : Context) (c : Char) :
    (State.inClass name around c).names ⊆ "" :: name :: around.classes := by
  rw [State.inClass]
  split
  · exact List.subset_cons_self _ _
  · split
    · simp [State.names]
    · split
      · exact List.Subset.trans (names_behind around) (by simp)
      · exact List.Subset.trans (names_failed around c) (by simp)

theorem names_inArguments (name : String) (around : Context) (c : Char) :
    (State.inArguments name around c).names ⊆ "" :: name :: around.classes := by
  rw [State.inArguments]
  split
  · exact List.subset_cons_self _ _
  · split
    · exact List.subset_cons_self _ _
    · split
      · exact List.subset_cons_self _ _
      · exact names_inType _ c

/-- Every name in the state is plain. -/
def State.Plain (s : State) : Prop :=
  ∀ name ∈ s.names, Signature.Plain name

/-- A state is plain if all its names are. -/
theorem State.Plain.of_subset {s : State} {names : List String} (h : s.names ⊆ "" :: names)
    (hnames : ∀ name ∈ names, Signature.Plain name) : s.Plain := by
  intro name hname
  rcases List.mem_cons.1 (h hname) with rfl | hmem
  · exact plain_empty
  · exact hnames name hmem

/-- A name that is asked for at the end of the text is plain. -/
theorem plain_of_mem_finish {s : State} (h : s.Plain) :
    ∀ name ∈ (finish s).filterMap Piece.name?, Plain name := by
  cases s with
  | className name around => simpa [finish, Piece.name?] using h name List.mem_cons_self
  | simpleName outside simple around =>
    have hplain := plain_join (h outside (by simp [State.names])) (h simple (by simp [State.names]))
    simpa [finish, Piece.name?] using hplain
  | _ => exact List.forall_mem_nil _

/-- One character keeps the names plain, the one that is being read and the ones that are emitted.
-/
theorem plain_step {s : State} (h : s.Plain) (c : Char) :
    (step s c).1.Plain ∧ ∀ name ∈ (step s c).2.filterMap Piece.name?, Plain name := by
  -- The names that stand in the state behind the one that is being read.
  have hnone : ∀ name ∈ ([] : List String), Plain name := List.forall_mem_nil _
  match s with
  | .start =>
    refine ⟨?_, hnone⟩
    rw [step]
    split
    · exact hnone
    · exact .of_subset (names_inBody c) hnone
  | .body => exact ⟨.of_subset (names_inBody c) hnone, hnone⟩
  | .parameters =>
    refine ⟨?_, hnone⟩
    rw [step, State.Plain, names_inParameters]
    exact hnone
  | .colon =>
    refine ⟨?_, hnone⟩
    rw [step]
    split
    · rw [State.Plain, names_inParameters]
      exact hnone
    · exact .of_subset (names_inType _ c) hnone
  | .type around => exact ⟨.of_subset (names_inType around c) h, hnone⟩
  | .variable around =>
    refine ⟨?_, hnone⟩
    rw [step]
    split
    · exact fun name hname => h name (names_behind around hname)
    · exact h
  | .className name around =>
    rw [step]
    split
    · exact ⟨.of_subset (names_inClass name around c) h, plain_of_mem_finish h⟩
    · next hc =>
      refine ⟨List.forall_mem_cons.2 ⟨?_, (List.forall_mem_cons.1 h).2⟩, hnone⟩
      exact plain_push (h name List.mem_cons_self) (by simpa using hc)
  | .afterClass name around => exact ⟨.of_subset (names_inClass name around c) h, hnone⟩
  | .simpleName outside simple around =>
    obtain ⟨ho, hs, haround⟩ :
        Plain outside ∧ Plain simple ∧ ∀ name ∈ around.classes, Plain name := by
      simpa [State.Plain, State.names] using h
    rw [step]
    split
    · refine ⟨.of_subset (names_inClass _ around c) ?_, plain_of_mem_finish h⟩
      exact List.forall_mem_cons.2 ⟨plain_join ho hs, haround⟩
    · next hc =>
      have hpush : Plain (simple.push c) := plain_push hs (by simpa using hc)
      refine ⟨?_, hnone⟩
      simpa [State.Plain, State.names] using ⟨ho, hpush, haround⟩
  | .arguments name around => exact ⟨.of_subset (names_inArguments name around c) h, hnone⟩
  | .broken => exact ⟨hnone, hnone⟩

/-- All names that are asked for are plain. -/
theorem plain_of_mem_emitted {s : State} (h : s.Plain) (text : List Char) :
    ∀ name ∈ (scanner.emitted s text).filterMap Piece.name?, Plain name := by
  induction text generalizing s with
  | nil =>
    rw [Transducer.emitted_nil]
    exact plain_of_mem_finish h
  | cons c text ih =>
    obtain ⟨hnext, hemitted⟩ := plain_step h c
    rw [Transducer.emitted_cons, List.filterMap_append, List.forall_mem_append]
    exact ⟨hemitted, ih hnext⟩

/-- No name that is read from a text holds a character that ends names. -/
theorem plain_of_mem_names {signature name : String} (h : name ∈ names signature) : Plain name :=
  plain_of_mem_emitted (s := .start) (List.forall_mem_nil _) _ name h

/-! ## Changing names twice -/

/-- Every class inside another one stays inside it. -/
def KeepsNesting (f : String → String) : Prop :=
  ∀ outside simple, (Token.inner outside simple).Keeps f

/-- A text that is written by the grammar. A type parameter may go without a bound if it is the last
one. -/
def IsSignature (text : String) : Prop :=
  ∃ s : Tree, s.spell = text ∧ (∀ x ∈ s.tokens, x.Fits) ∧ ∀ p ∈ s.parameters.dropLast, p.Bounded

variable {f g : String → String}

/-- A renaming that keeps nested classes nested keeps every token. -/
theorem KeepsNesting.keeps (h : KeepsNesting f) (t : Token) : t.Keeps f := by
  cases t with
  | inner outside simple => exact h outside simple
  | _ => trivial

/-- Two changes that keep classes inside others do so together. -/
theorem KeepsNesting.comp (hg : KeepsNesting g) (hf : KeepsNesting f) :
    KeepsNesting fun name => g (f name) := by
  intro outside simple
  have hname := join_innerName (hf outside simple)
  have hkeeps : (Nested.join (g (f outside)) "").toList <+:
      (g (Nested.join (f outside) (innerName f outside simple))).toList := hg _ _
  rw [hname] at hkeeps
  exact hkeeps

/-- A token gets a new name twice as it gets it at once. -/
theorem Token.rename_rename {t : Token} (h : t.Keeps f) :
    (t.rename f).rename g = t.rename fun name => g (f name) := by
  cases t with
  | inner outside simple =>
    have hinner : innerName g (f outside) (innerName f outside simple) =
        innerName (fun name => g (f name)) outside simple := by
      rw [innerName, join_innerName h, innerName]
    rw [rename, rename, hinner]
    rfl
  | _ => rfl

/-- A signature has got new names once it is written with them. -/
theorem map_tree {s : Tree} (hfits : ∀ x ∈ s.tokens, x.Fits)
    (hbounded : ∀ p ∈ s.parameters.dropLast, p.Bounded) (hf : KeepsNesting f) :
    map f s.spell = (s.rename f).spell := by
  have hkeeps : ∀ x ∈ s.tokens, x.Keeps f := fun x _ => hf.keeps x
  rw [map, pieces_spell s hfits hbounded, join_flatMap_pieces hkeeps, ← s.tokens_rename hkeeps]
  rfl

/-- New names of signatures without the characters that end names can be changed at once. -/
theorem map_map {text : String} (htext : IsSignature text)
    (hplain : ∀ name, Plain name → Plain (f name)) (hf : KeepsNesting f) (hg : KeepsNesting g) :
    map g (map f text) = map (fun name => g (f name)) text := by
  obtain ⟨s, rfl, hfits, hbounded⟩ := htext
  have hnames : ∀ name ∈ s.names, Plain name := by
    rw [← names_spell s hfits hbounded]
    exact fun name hname => plain_of_mem_names hname
  have hfits' : ∀ x ∈ (s.rename f).tokens, x.Fits := by
    rw [s.tokens_rename fun x _ => hf.keeps x, List.forall_mem_map]
    refine fun x hx => Token.fits_rename (hfits x hx) (hf.keeps x) fun name hname => ?_
    exact hplain name (hnames name (List.mem_filterMap.2 ⟨x, hx, hname⟩))
  have hbounded' : ∀ p ∈ (s.rename f).parameters.dropLast, p.Bounded := by
    rw [s.parameters_rename, ← List.map_dropLast, List.forall_mem_map]
    exact fun p hp => p.bounded_rename.2 (hbounded p hp)
  have htokens : ((s.rename f).rename g).tokens = (s.rename fun name => g (f name)).tokens := by
    rw [Tree.tokens_rename _ fun x _ => hg.keeps x, s.tokens_rename fun x _ => hf.keeps x,
      s.tokens_rename fun x _ => (hg.comp hf).keeps x, List.map_map]
    exact List.map_congr_left fun x _ => Token.rename_rename (hf.keeps x)
  rw [map_tree hfits hbounded hf, map_tree hfits' hbounded' hg,
    map_tree hfits hbounded (hg.comp hf),
    Tree.spell, htokens]
  rfl

end Crosswalk.Signature
