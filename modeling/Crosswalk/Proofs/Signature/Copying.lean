import Crosswalk.Names.Signature
import Crosswalk.Proofs.Names.Nesting

/-!
# Nothing of a signature is lost

Whatever a text looks like, reading it takes one step a character. A step either adds the character
to a name that is being read, or emits that name, if there is one, and the character itself
(`Signature.step_cases`). So what has been emitted and the name that is being read make up the text
that has been read, and with the names that it had all along a text is copied as it is
(`Signature.map_id_eq`). A name begins behind an `L` or a dot only.
-/

namespace Crosswalk.Signature

/-- The letters of a name that have been read, if a name is being read. -/
def State.pending? : State → Option String
  | className name _ => some name
  | simpleName _ simple _ => some simple
  | _ => none

/-- The characters that a name may begin behind. -/
def opensName (c : Char) : Bool :=
  c = 'L' || c = '.'

/-- A state in which no name is being read, or one has just begun behind the character. -/
def State.Fresh (s : State) (c : Char) : Prop :=
  s.pending? = none ∨ s.pending? = some "" ∧ opensName c = true

/-! ## One step -/

/-- Behind a type no name has been begun. -/
theorem fresh_behind (around : Context) (c : Char) : (State.behind around).Fresh c := by
  rw [State.behind]
  split
  · exact .inl rfl
  · split <;> exact .inl rfl

/-- At the start of a type a name can only begin. -/
theorem fresh_type? {around : Context} {c : Char} {s : State} (h : State.type? around c = some s) :
    s.Fresh c := by
  rw [State.type?] at h
  split at h
  · cases h
    exact fresh_behind around c
  · split at h
    · cases h
      exact .inl rfl
    · split at h
      · cases h
        exact .inl rfl
      · split at h
        · next hc =>
          cases h
          exact .inr ⟨rfl, by simp [opensName, hc]⟩
        · cases h

theorem fresh_inBody (c : Char) : (State.inBody c).Fresh c := by
  rw [State.inBody]
  split
  · exact .inl rfl
  · cases h : State.type? ⟨false, []⟩ c with
    | some s => exact fresh_type? h
    | none => exact .inl rfl

theorem fresh_failed (around : Context) (c : Char) : (State.failed around c).Fresh c := by
  rw [State.failed]
  split
  · exact fresh_inBody c
  · exact .inl rfl

theorem fresh_inType (around : Context) (c : Char) : (State.inType around c).Fresh c := by
  rw [State.inType]
  cases h : State.type? around c with
  | some s => exact fresh_type? h
  | none => exact fresh_failed around c

theorem fresh_inParameters (c : Char) : (State.inParameters c).Fresh c := by
  rw [State.inParameters]
  split
  · exact .inl rfl
  · split <;> exact .inl rfl

/-- Behind the name of a class the name of a nested one may begin. -/
theorem fresh_inClass (name : String) (around : Context) (c : Char) :
    (State.inClass name around c).Fresh c := by
  rw [State.inClass]
  split
  · exact .inl rfl
  · split
    · next hc => exact .inr ⟨rfl, by simp [opensName, hc]⟩
    · split
      · exact fresh_behind around c
      · exact fresh_failed around c

/-- In arguments a new type begins. -/
theorem fresh_inArguments (name : String) (around : Context) (c : Char) :
    (State.inArguments name around c).Fresh c := by
  rw [State.inArguments]
  split
  · exact .inl rfl
  · split
    · exact .inl rfl
    · split
      · exact .inl rfl
      · exact fresh_inType _ c

/-- A character belongs to the name that is being read and is kept for later, or it comes out behind
that name. -/
theorem step_cases (s : State) (c : Char) :
    (∃ name, s.pending? = some name ∧ (scanner.step s c).1.pending? = some (name.push c) ∧
      (scanner.step s c).2 = []) ∨
    (scanner.step s c).1.Fresh c ∧ (scanner.step s c).2 = finish s ++ [.verbatim c] := by
  match s with
  | .start =>
    refine .inr ⟨?_, rfl⟩
    simp only [scanner, step]
    split
    · exact .inl rfl
    · exact fresh_inBody c
  | .body => exact .inr ⟨fresh_inBody c, rfl⟩
  | .parameters => exact .inr ⟨fresh_inParameters c, rfl⟩
  | .colon =>
    refine .inr ⟨?_, rfl⟩
    simp only [scanner, step]
    split
    · exact fresh_inParameters c
    · exact fresh_inType _ c
  | .type around => exact .inr ⟨fresh_inType around c, rfl⟩
  | .variable around =>
    refine .inr ⟨?_, rfl⟩
    simp only [scanner, step]
    split
    · exact fresh_behind around c
    · exact .inl rfl
  | .className name around =>
    simp only [scanner, step]
    split
    · exact .inr ⟨fresh_inClass name around c, rfl⟩
    · exact .inl ⟨name, rfl, rfl, rfl⟩
  | .afterClass name around => exact .inr ⟨fresh_inClass name around c, rfl⟩
  | .simpleName outside simple around =>
    simp only [scanner, step]
    split
    · exact .inr ⟨fresh_inClass _ around c, rfl⟩
    · exact .inl ⟨simple, rfl, rfl, rfl⟩
  | .arguments name around => exact .inr ⟨fresh_inArguments name around c, rfl⟩
  | .broken => exact .inr ⟨.inl rfl, rfl⟩

/-! ## The whole text -/

/-- What the name that is being read comes out as, with the names that classes had before. -/
theorem join_finish (s : State) :
    String.join ((finish s).map (Piece.render id)) = s.pending?.getD "" := by
  cases s with
  | simpleName outside simple around =>
    simp [finish, Piece.render, simpleName, State.pending?]
  | _ => simp [finish, Piece.render, State.pending?]

/-- At most one name is being read, and then it is asked for. -/
theorem names_finish (s : State) :
    ((finish s).filterMap Piece.name?).length = s.pending?.toList.length := by
  cases s <;> rfl

/-- From any state on, the name that is being read and the text behind it come out again. -/
theorem join_emitted (s : State) (text : List Char) :
    String.join ((scanner.emitted s text).map (Piece.render id)) =
      s.pending?.getD "" ++ String.ofList text := by
  induction text generalizing s with
  | nil =>
    rw [Transducer.emitted_nil]
    exact (join_finish s).trans (by simp)
  | cons c text ih =>
    rw [Transducer.emitted_cons, List.map_append, String.join_append, ih, String.ofList_cons]
    rcases step_cases s c with ⟨name, hname, hnext, hemitted⟩ | ⟨hfresh, hemitted⟩
    · rw [hemitted, hnext, hname]
      simp [← String.append_singleton, String.append_assoc]
    · have hnext : (scanner.step s c).1.pending?.getD "" = "" := by
        rcases hfresh with h | ⟨h, -⟩ <;> rw [h] <;> rfl
      rw [hemitted, hnext, List.map_append, String.join_append, join_finish]
      simp [Piece.render, String.append_assoc, -String.append_singleton]

/-- From any state on, no more names are asked for than are being read or begin in the text. -/
theorem length_names_emitted_le (s : State) (text : List Char) :
    ((scanner.emitted s text).filterMap Piece.name?).length ≤
      s.pending?.toList.length + text.countP opensName := by
  induction text generalizing s with
  | nil =>
    rw [Transducer.emitted_nil]
    exact Nat.le_of_eq (names_finish s)
  | cons c text ih =>
    have ih := ih (scanner.step s c).1
    rw [Transducer.emitted_cons, List.filterMap_append, List.length_append, List.countP_cons]
    rcases step_cases s c with ⟨name, hname, hnext, hemitted⟩ | ⟨hfresh, hemitted⟩
    · rw [hnext] at ih
      rw [hemitted, hname]
      simp only [List.filterMap_nil, List.length_nil, Option.toList_some, List.length_cons] at ih ⊢
      omega
    · have hnext : (scanner.step s c).1.pending?.toList.length ≤ if opensName c then 1 else 0 := by
        rcases hfresh with h | ⟨h, hc⟩
        · rw [h]
          exact Nat.zero_le _
        · rw [h, if_pos hc]
          exact Nat.le_refl 1
      rw [hemitted, List.filterMap_append, List.length_append, names_finish]
      simp only [List.filterMap_cons, Piece.name?, List.filterMap_nil, List.length_nil]
      omega

/-- Every text is copied as it is, if classes keep their names, and however many names a text has,
it asks for no more of them than it has characters behind which a name may begin. -/
theorem map_id_eq (signature : String) : map id signature = signature ∧
    (names signature).length ≤ signature.toList.countP opensName := by
  refine ⟨?_, ?_⟩
  · rw [map, pieces, join_emitted]
    simp [State.pending?]
  · have hle := length_names_emitted_le .start signature.toList
    simpa [State.pending?, names, pieces] using hle

/-- Broken texts are copied, too: one ends inside the arguments of a class, in one a bound makes no
sense, and behind the last one something is left. -/
example : map id "La<Lb<+[" = "La<Lb<+[" ∧ map id "<T:1>La;" = "<T:1>La;" ∧
    map id "La;.b>;" = "La;.b>;" := by
  decide +kernel

end Crosswalk.Signature
