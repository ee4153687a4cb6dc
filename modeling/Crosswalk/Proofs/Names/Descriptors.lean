import Crosswalk.Names.Descriptor

/-!
# Descriptors with other names

A descriptor that has got other names is taken apart into the same pieces with the new names in
them, as long as no new name holds the semicolon that ends a name (`pieces_map`). So two changes of
names compose (`map_map`), and changes that agree on the classes of a descriptor do the same to it
(`map_congr`).

With the names that its classes had before, a text is copied, whether it is a descriptor or not, but
a name that is open at its end gets a semicolon (`map_id`).
-/

namespace Crosswalk.Descriptor

/-- A piece with another name in it. -/
def Piece.map (f : String → String) : Piece → Piece
  | verbatim c => .verbatim c
  | name s => .name (f s)

variable {f g : String → String} {descriptor : String}

/-- The names of a descriptor are those of its pieces. -/
theorem mem_names_iff {name : String} :
    name ∈ names descriptor ↔ .name name ∈ pieces descriptor := by
  rw [names, List.mem_filterMap]
  refine ⟨?_, fun h => ⟨_, h, rfl⟩⟩
  rintro ⟨piece, hpiece, hname⟩
  cases piece with
  | verbatim c => cases hname
  | name s => cases hname; exact hpiece

/-- Names that agree on the classes of a descriptor spell it alike. -/
theorem map_congr (h : ∀ name ∈ names descriptor, f name = g name) :
    map f descriptor = map g descriptor := by
  rw [map, map]
  refine congrArg String.join (List.map_congr_left fun piece hpiece => ?_)
  cases piece with
  | verbatim c => rfl
  | name s => rw [Piece.render, Piece.render, h s (mem_names_iff.2 hpiece)]

/-! ## Names and their ends -/

/-- The letters of a name that have been read. -/
def State.pending : State → String
  | outside => ""
  | inName s => s

/-- One character keeps semicolons out of the name that is being read, and of what is emitted. -/
theorem not_mem_step {state : State} (hstate : ';' ∉ state.pending.toList) (c : Char) :
    ';' ∉ (step state c).1.pending.toList ∧
      ∀ name, .name name ∈ (step state c).2 → ';' ∉ name.toList := by
  cases state with
  | outside =>
    refine ⟨?_, fun name h => nomatch List.mem_singleton.1 h⟩
    rw [step]
    split <;> exact hstate
  | inName s =>
    rw [step]
    split
    · refine ⟨List.not_mem_nil, fun name h => ?_⟩
      cases List.mem_singleton.1 h
      exact hstate
    · next hc =>
      refine ⟨?_, fun name h => nomatch h⟩
      simpa [State.pending, eq_comm (a := ';'), hc] using hstate

/-- No name that is read holds a semicolon. -/
theorem not_mem_of_mem_emitted {state : State} (hstate : ';' ∉ state.pending.toList)
    {text : List Char} {name : String} (h : .name name ∈ scanner.emitted state text) :
    ';' ∉ name.toList := by
  induction text generalizing state with
  | nil =>
    cases state with
    | outside => cases h
    | inName s =>
      cases List.mem_singleton.1 h
      exact hstate
  | cons c text ih =>
    obtain ⟨hnext, hemitted⟩ := not_mem_step hstate c
    rw [Transducer.emitted_cons, List.mem_append] at h
    exact h.elim (hemitted name) (ih hnext)

/-- There is no semicolon in a name. -/
theorem not_mem_of_mem_names {name : String} (h : name ∈ names descriptor) : ';' ∉ name.toList :=
  not_mem_of_mem_emitted List.not_mem_nil (mem_names_iff.1 h)

/-! ## Reading what has been written -/

/-- Behind some letters of a name, the rest of the name up to its semicolon is read as such. -/
theorem emitted_inName (s : String) {text : List Char} (htext : ';' ∉ text) (rest : List Char) :
    scanner.emitted (.inName s) (text ++ ';' :: rest) =
      .name (s ++ String.ofList text) :: scanner.emitted .outside rest := by
  induction text generalizing s with
  | nil => simp [scanner, step]
  | cons c text ih =>
    rw [List.mem_cons, not_or] at htext
    have hstep : scanner.step (.inName s) c = (.inName (s.push c), []) :=
      if_neg fun h => htext.1 h.symm
    rw [List.cons_append, Transducer.emitted_cons, hstep, List.nil_append, ih _ htext.2,
      String.ofList_cons, ← String.append_singleton, String.append_assoc]

/-- Where the reading of a text with new names stands: the letters of an old name that have been
read are no part of the new name. -/
def State.renewed : State → State
  | outside => .outside
  | inName _ => .inName ""

/-- A new name is read up to its semicolon. -/
theorem emitted_render_name {s : String} (hs : ';' ∉ (f s).toList) (rest : List Piece) :
    scanner.emitted (.inName "") (String.join ((.name s :: rest).map (Piece.render f))).toList =
      .name (f s) ::
        scanner.emitted .outside (String.join (rest.map (Piece.render f))).toList := by
  have hread := emitted_inName "" hs (String.join (rest.map (Piece.render f))).toList
  simpa [Piece.render] using hread

/-- A text with new names is read in step with the old one. -/
theorem emitted_render (state : State) (text : List Char)
    (hnew : ∀ name, .name name ∈ scanner.emitted state text → ';' ∉ (f name).toList) :
    scanner.emitted state.renewed
        (String.join ((scanner.emitted state text).map (Piece.render f))).toList =
      (scanner.emitted state text).map (Piece.map f) := by
  induction text generalizing state with
  | nil =>
    cases state with
    | outside => rfl
    | inName s => exact emitted_render_name (hnew s (List.mem_singleton.2 rfl)) []
  | cons c text ih =>
    rw [Transducer.emitted_cons] at hnew ⊢
    have ih := ih (scanner.step state c).1 fun name hmem => hnew name (List.mem_append_right _ hmem)
    rw [List.map_append, List.map_append, ← ih]
    cases state with
    | outside =>
      have hnext : (scanner.step .outside c).1.renewed = (scanner.step .outside c).1 := by
        simp only [scanner, step]
        split <;> rfl
      rw [hnext]
      simp [scanner, step, State.renewed, Piece.render, Piece.map]
    | inName s =>
      by_cases hc : c = ';'
      · have hstep : scanner.step (.inName s) c = (.outside, [.name s]) := if_pos hc
        rw [hstep] at hnew ⊢
        exact emitted_render_name (hnew s List.mem_cons_self) _
      · have hstep : scanner.step (.inName s) c = (.inName (s.push c), []) := if_neg hc
        rw [hstep]
        rfl

/-- New names without semicolons leave the pieces as they are otherwise. -/
theorem pieces_map (hnew : ∀ name ∈ names descriptor, ';' ∉ (f name).toList) :
    pieces (map f descriptor) = (pieces descriptor).map (Piece.map f) :=
  emitted_render .outside descriptor.toList fun name hname => hnew name (mem_names_iff.2 hname)

/-- Names can be changed twice at once. -/
theorem map_map (hnew : ∀ name ∈ names descriptor, ';' ∉ (f name).toList) :
    map g (map f descriptor) = map (fun name => g (f name)) descriptor := by
  rw [map, pieces_map hnew, List.map_map, map]
  refine congrArg String.join (List.map_congr_left fun piece _ => ?_)
  cases piece <;> rfl

/-! ## The names from before -/

/-- Behind each `L` comes a semicolon, so that no name is open at the end. -/
def Closed (descriptor : String) : Prop :=
  ∀ rest, 'L' :: rest <:+ descriptor.toList → ';' ∈ rest

/-- Reading the text from the state on leaves no name open. -/
def State.Closes (state : State) (text : List Char) : Prop :=
  (state ≠ .outside → ';' ∈ text) ∧ ∀ rest, 'L' :: rest <:+ text → ';' ∈ rest

/-- One character makes no difference to that, whether it is ahead or has been read. -/
theorem closes_step (state : State) (c : Char) (text : List Char) :
    (step state c).1.Closes text ↔ state.Closes (c :: text) := by
  have hsuffix : (∀ rest, 'L' :: rest <:+ c :: text → ';' ∈ rest) ↔
      (c = 'L' → ';' ∈ text) ∧ ∀ rest, 'L' :: rest <:+ text → ';' ∈ rest := by
    simp only [List.suffix_cons_iff, List.cons.injEq]
    constructor
    · intro h
      exact ⟨fun hc => h text (.inl ⟨hc.symm, rfl⟩), fun rest hrest => h rest (.inr hrest)⟩
    · rintro ⟨hfirst, hrest⟩ rest (⟨hc, rfl⟩ | hsuffix)
      · exact hfirst hc.symm
      · exact hrest rest hsuffix
  unfold State.Closes
  rw [hsuffix]
  cases state with
  | outside =>
    by_cases hc : c = 'L'
    · simp [step, hc]
    · simp [step, hc]
  | inName s =>
    by_cases hc : c = ';'
    · simp [step, hc]
    · -- Within a name an `L` is a letter like any other, and the semicolon has to come anyway.
      have hne : ';' ≠ c := fun h => hc h.symm
      simp only [step, if_neg hc, List.mem_cons, hne, false_or, ne_eq, reduceCtorEq,
        not_false_eq_true,
        forall_const]
      constructor
      · rintro ⟨hend, hrest⟩
        exact ⟨hend, fun _ => hend, hrest⟩
      · rintro ⟨hend, -, hrest⟩
        exact ⟨hend, hrest⟩

/-- What comes out for a character, and what is kept of it, is what had been kept and the character.
-/
theorem join_step (state : State) (c : Char) :
    String.join ((step state c).2.map (Piece.render id)) ++ (step state c).1.pending =
      state.pending ++ String.singleton c := by
  cases state with
  | outside =>
    by_cases hc : c = 'L'
    · simp [step, hc, State.pending, Piece.render]
    · simp [step, hc, State.pending, Piece.render]
  | inName s =>
    by_cases hc : c = ';'
    · simp [step, hc, State.pending, Piece.render]
    · simp [step, hc, State.pending]

/-- From any state on, the name that is being read and the text behind it come out again, with a
semicolon if a name is left open. -/
theorem join_emitted (state : State) (text : List Char) :
    (state.Closes text → String.join ((scanner.emitted state text).map (Piece.render id)) =
        state.pending ++ String.ofList text) ∧
      (¬ state.Closes text → String.join ((scanner.emitted state text).map (Piece.render id)) =
        state.pending ++ String.ofList text ++ ";") := by
  induction text generalizing state with
  | nil =>
    cases state with
    | outside => simp [State.Closes, State.pending, scanner, finish]
    | inName s => simp [State.Closes, State.pending, scanner, finish, Piece.render]
  | cons c text ih =>
    -- A name that is still being read is made up of the letters kept so far, and none is lost.
    have hstep : ∀ last : String,
        String.join ((step state c).2.map (Piece.render id)) ++
            ((step state c).1.pending ++ String.ofList text ++ last) =
          state.pending ++ String.ofList (c :: text) ++ last := by
      intro last
      rw [← String.append_assoc, ← String.append_assoc, join_step, String.ofList_cons]
      simp only [String.append_assoc]
    obtain ⟨hclosed, hopen⟩ := ih (step state c).1
    rw [closes_step] at hclosed hopen
    rw [Transducer.emitted_cons, List.map_append, String.join_append]
    constructor
    · intro h
      have hlast := hstep ""
      rw [String.append_empty, String.append_empty] at hlast
      exact (congrArg _ (hclosed h)).trans hlast
    · intro h
      exact (congrArg _ (hopen h)).trans (hstep ";")

/-- With the names that classes had before, a text is copied if no name in it is open at the end,
and gets a semicolon otherwise. -/
theorem map_id (descriptor : String) : (Closed descriptor → map id descriptor = descriptor) ∧
    (¬ Closed descriptor → map id descriptor = descriptor ++ ";") := by
  have hcloses : State.outside.Closes descriptor.toList ↔ Closed descriptor := by
    simp [State.Closes, Closed]
  have h := join_emitted .outside descriptor.toList
  rw [hcloses] at h
  simpa [State.pending, map, pieces] using h

/-- A descriptor is copied if none of its names is left open. -/
theorem map_id_eq_self_iff : map id descriptor = descriptor ↔ Closed descriptor := by
  obtain ⟨hclosed, hopen⟩ := map_id descriptor
  refine ⟨fun hsame => ?_, hclosed⟩
  by_cases h : Closed descriptor
  · exact h
  · have hlength := congrArg String.length ((hopen h).symm.trans hsame)
    rw [String.length_append] at hlength
    have hone : ";".length = 1 := by decide
    omega

/-- The texts in a class constant that are read as descriptors. -/
def inConstant (name : String) : List String :=
  if isArray name then [name] else []

/-- A class constant is copied if it is a name, or a descriptor that is copied. -/
theorem mapConstant_id_eq_self_iff {name : String} :
    mapConstant id name = name ↔ ∀ d ∈ inConstant name, Closed d := by
  unfold mapConstant inConstant
  split
  · rw [map_id_eq_self_iff, List.forall_mem_singleton]
  · simp

end Crosswalk.Descriptor
