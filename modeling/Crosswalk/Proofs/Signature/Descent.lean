import Mathlib.Data.List.TakeDrop
import Mathlib.Data.List.TakeWhile
import Mathlib.Data.Nat.Init
import Crosswalk.Proofs.Signature.Rewriting

/-!
# Signatures by descent

A reader by descent has a routine for each part of a signature. A routine takes what it understands
from the front of a text, says whether that was a whole part, and leaves the rest to the routine
that has called it. `Descent.Reads` lists what the routines can do, one constructor for each way
through one of them.

Every routine ends, whatever the text (`Descent.exists_readsSignature`), since it calls others only
for less of the text, or for a type in front of the same text.
-/

namespace Crosswalk.Signature

namespace Descent

/-! ## Routines -/

/-- The characters in front of the first one that ends a name, and the rest. -/
def identifier (ends : Char → Bool) (text : List Char) : List Char × List Char :=
  text.span fun c => !ends c

/-- The characters that types begin with. -/
def opensType (c : Char) : Bool :=
  isPrimitive c || c = '[' || c = 'T' || c = 'L'

/-- The parts of a type that have routines. -/
inductive Part
  | type
  /-- What stands behind the name of a class, up to the semicolon. -/
  | suffix (name : String)
  /-- The type arguments of a class, behind the bracket in front of them. -/
  | arguments

/-- What the routine for a part makes of a text: the pieces that it takes, whether they are a whole
part, and the text that it leaves. -/
inductive Reads : Part → List Char → List Piece → Bool → List Char → Prop
  | primitive {c : Char} {text : List Char} (hc : isPrimitive c = true) :
    Reads .type (c :: text) [.verbatim c] true text
  | array {text rest : List Char} {ps : List Piece} {ok : Bool} (h : Reads .type text ps ok rest) :
    Reads .type ('[' :: text) (.verbatim '[' :: ps) ok rest
  | typeVariable {text name rest : List Char}
    (hname : identifier (· = ';') text = (name, ';' :: rest)) :
    Reads .type ('T' :: text) (.verbatim 'T' :: (name ++ [';']).map .verbatim) true rest
  | openVariable {text name : List Char} (hname : identifier (· = ';') text = (name, [])) :
    Reads .type ('T' :: text) (.verbatim 'T' :: name.map .verbatim) false []
  | object {text name behind rest : List Char} {ps : List Piece} {ok : Bool}
    (hname : identifier isEnd text = (name, behind))
    (h : Reads (.suffix (String.ofList name)) behind ps ok rest) :
    Reads .type ('L' :: text) (.verbatim 'L' :: .outer (String.ofList name) :: ps) ok rest
  | noType {text : List Char} (h : ∀ c ∈ text.head?, opensType c = false) :
    Reads .type text [] false text
  | within {name : String} {text behind rest : List Char} {ps qs : List Piece} {ok : Bool}
    (h : Reads .arguments text ps true behind) (hrest : Reads (.suffix name) behind qs ok rest) :
    Reads (.suffix name) ('<' :: text) (.verbatim '<' :: (ps ++ qs)) ok rest
  | brokenWithin {name : String} {text rest : List Char} {ps : List Piece}
    (h : Reads .arguments text ps false rest) :
    Reads (.suffix name) ('<' :: text) (.verbatim '<' :: ps) false rest
  | inside {name : String} {text simple behind rest : List Char} {ps : List Piece} {ok : Bool}
    (hsimple : identifier isEnd text = (simple, behind))
    (h : Reads (.suffix (Nested.join name (String.ofList simple))) behind ps ok rest) :
    Reads (.suffix name) ('.' :: text) (.verbatim '.' :: .inner name (String.ofList simple) :: ps)
      ok rest
  | closed {name : String} {text : List Char} :
    Reads (.suffix name) (';' :: text) [.verbatim ';'] true text
  | noSuffix {name : String} {text : List Char} (h : ∀ c ∈ text.head?, isEnd c = false) :
    Reads (.suffix name) text [] false text
  | noMore {text : List Char} : Reads .arguments ('>' :: text) [.verbatim '>'] true text
  | any {text rest : List Char} {ps : List Piece} {ok : Bool}
      (h : Reads .arguments text ps ok rest) :
    Reads .arguments ('*' :: text) (.verbatim '*' :: ps) ok rest
  | signed {sign : Char} {text behind rest : List Char} {ps qs : List Piece} {ok : Bool}
    (hsign : sign = '+' ∨ sign = '-') (h : Reads .type text ps true behind)
    (hrest : Reads .arguments behind qs ok rest) :
    Reads .arguments (sign :: text) (.verbatim sign :: (ps ++ qs)) ok rest
  | brokenSigned {sign : Char} {text rest : List Char} {ps : List Piece}
    (hsign : sign = '+' ∨ sign = '-') (h : Reads .type text ps false rest) :
    Reads .arguments (sign :: text) (.verbatim sign :: ps) false rest
  | argument {c : Char} {text behind rest : List Char} {ps qs : List Piece} {ok : Bool}
    (hc : c ∉ ['>', '*', '+', '-']) (h : Reads .type (c :: text) ps true behind)
    (hrest : Reads .arguments behind qs ok rest) :
    Reads .arguments (c :: text) (ps ++ qs) ok rest
  | brokenArgument {c : Char} {text rest : List Char} {ps : List Piece}
    (hc : c ∉ ['>', '*', '+', '-']) (h : Reads .type (c :: text) ps false rest) :
    Reads .arguments (c :: text) ps false rest
  | openArguments : Reads .arguments [] [] false []

/-- What the routine for type parameters makes of a text behind the bracket in front of them. A
bound that is not understood ends them. -/
inductive ReadsParameters : List Char → List Piece → List Char → Prop
  | closed {text : List Char} : ReadsParameters ('>' :: text) [.verbatim '>'] text
  | noBound {c : Char} {text rest : List Char} {ps : List Piece} (hc : c = ':' ∨ c = '>')
    (h : ReadsParameters (c :: text) ps rest) :
    ReadsParameters (':' :: c :: text) (.verbatim ':' :: ps) rest
  | bound {text behind rest : List Char} {ps qs : List Piece}
    (hopen : ∀ c ∈ text.head?, c ≠ ':' ∧ c ≠ '>') (h : Reads .type text ps true behind)
    (hrest : ReadsParameters behind qs rest) :
    ReadsParameters (':' :: text) (.verbatim ':' :: (ps ++ qs)) rest
  | brokenBound {text rest : List Char} {ps : List Piece}
    (hopen : ∀ c ∈ text.head?, c ≠ ':' ∧ c ≠ '>') (h : Reads .type text ps false rest) :
    ReadsParameters (':' :: text) (.verbatim ':' :: ps) rest
  | name {c : Char} {text name behind rest : List Char} {ps : List Piece} (hc : c ≠ ':' ∧ c ≠ '>')
    (hname : identifier (fun c => c = ':' || c = '>') (c :: text) = (name, behind))
    (h : ReadsParameters behind ps rest) :
    ReadsParameters (c :: text) (name.map .verbatim ++ ps) rest
  | ended : ReadsParameters [] [] []

/-- What is made of the types of a signature, one behind the other. What is left behind one that is
not understood is copied. -/
inductive ReadsBody : List Char → List Piece → Prop
  | nil : ReadsBody [] []
  | mark {c : Char} {text : List Char} {ps : List Piece} (hc : c ∈ ['(', ')', '^', 'V'])
    (h : ReadsBody text ps) : ReadsBody (c :: text) (.verbatim c :: ps)
  | type {c : Char} {text behind : List Char} {ps qs : List Piece}
    (hc : c ∉ ['(', ')', '^', 'V']) (h : Reads .type (c :: text) ps true behind)
    (hrest : ReadsBody behind qs) : ReadsBody (c :: text) (ps ++ qs)
  | broken {c : Char} {text rest : List Char} {ps : List Piece} (hc : c ∉ ['(', ')', '^', 'V'])
    (h : Reads .type (c :: text) ps false rest) :
    ReadsBody (c :: text) (ps ++ rest.map .verbatim)

/-- What is made of a signature. -/
inductive ReadsSignature : List Char → List Piece → Prop
  | generic {text behind : List Char} {ps qs : List Piece} (h : ReadsParameters text ps behind)
    (hbody : ReadsBody behind qs) : ReadsSignature ('<' :: text) (.verbatim '<' :: (ps ++ qs))
  | plain {text : List Char} {ps : List Piece} (h : text.head? ≠ some '<')
      (hbody : ReadsBody text ps) :
    ReadsSignature text ps

variable {part : Part} {text name behind rest : List Char} {ps qs : List Piece} {ok : Bool}

/-- An identifier is as long as can be. -/
theorem of_identifier {ends : Char → Bool} (h : identifier ends text = (name, behind)) :
    text = name ++ behind ∧ (∀ c ∈ name, ends c = false) ∧ ∀ c ∈ behind.head?, ends c = true := by
  rw [identifier, List.span_eq_takeWhile_dropWhile] at h
  cases h
  refine ⟨List.takeWhile_append_dropWhile.symm,
    fun c hc => by simpa using List.mem_takeWhile_imp hc,
    fun c hc => ?_⟩
  rw [← List.find?_eq_head?_dropWhile_not] at hc
  exact List.find?_some hc

/-- What is behind a name is no longer than the text. -/
theorem length_identifier_le (ends : Char → Bool) (text : List Char) :
    (identifier ends text).2.length ≤ text.length := by
  rcases hname : identifier ends text with ⟨name, behind⟩
  rw [(of_identifier hname).1, List.length_append]
  exact Nat.le_add_left _ _

/-! ## There is always something to make of a text -/

/-- A routine goes on, and has taken something if it took a whole part. -/
theorem Reads.length_le (h : Reads part text ps ok rest) :
    rest.length ≤ text.length ∧ (ok = true → rest.length < text.length) := by
  induction h with
  | typeVariable hname =>
    obtain ⟨rfl, -⟩ := of_identifier hname
    simp only [List.length_cons, List.length_append]
    omega
  | object hname h ih | inside hname h ih =>
    obtain ⟨rfl, -⟩ := of_identifier hname
    have hle := ih.1
    simp only [List.length_cons, List.length_append]
    exact ⟨by omega, fun _ => by omega⟩
  | within h hrest ih ih' | signed hsign h hrest ih ih' =>
    have hle := Nat.le_trans ih'.1 ih.1
    exact ⟨Nat.le_succ_of_le hle, fun _ => Nat.lt_succ_of_le hle⟩
  | argument hc h hrest ih ih' =>
    have hlt := Nat.lt_of_le_of_lt ih'.1 (ih.2 rfl)
    exact ⟨hlt.le, fun _ => hlt⟩
  | array h ih | any h ih | brokenWithin h ih | brokenSigned hsign h ih =>
    exact ⟨Nat.le_succ_of_le ih.1, fun _ => Nat.lt_succ_of_le ih.1⟩
  | brokenArgument hc h ih => exact ih
  | _ => simp

/-- The routine for the part makes something of the text. -/
def Answers (part : Part) (text : List Char) : Prop :=
  ∃ ps ok rest, Reads part text ps ok rest

section Answers

variable (hshorter : ∀ part (text' : List Char), text'.length < text.length → Answers part text')
include hshorter

/-- What calls are made for a type have less of the text. -/
theorem answers_type : Answers .type text := by
  by_cases hopen : ∀ c ∈ text.head?, opensType c = false
  · exact ⟨_, _, _, .noType hopen⟩
  · push Not at hopen
    obtain ⟨c, hc, hopen⟩ := hopen
    obtain ⟨text, rfl⟩ := List.head?_eq_some_iff.1 hc
    simp only [opensType, ne_eq, Bool.not_eq_false, Bool.or_eq_true, decide_eq_true_eq] at hopen
    rcases hopen with ((hprimitive | rfl) | rfl) | rfl
    · exact ⟨_, _, _, .primitive hprimitive⟩
    · obtain ⟨ps, ok, rest, h⟩ := hshorter .type text (Nat.lt_succ_self _)
      exact ⟨_, _, _, .array h⟩
    · rcases hname : identifier (· = ';') text with ⟨name, _ | ⟨c, rest⟩⟩
      · exact ⟨_, _, _, .openVariable hname⟩
      · have hend := (of_identifier hname).2.2 c rfl
        simp only [decide_eq_true_eq] at hend
        exact ⟨_, _, _, .typeVariable (hend ▸ hname)⟩
    · have hlt := Nat.lt_succ_of_le (length_identifier_le isEnd text)
      obtain ⟨ps, ok, rest, h⟩ := hshorter (.suffix (String.ofList (identifier isEnd text).1)) _ hlt
      exact ⟨_, _, _, .object rfl h⟩

/-- So have those behind the name of a class. -/
theorem answers_suffix (name : String) : Answers (.suffix name) text := by
  by_cases hopen : ∀ c ∈ text.head?, isEnd c = false
  · exact ⟨_, _, _, .noSuffix hopen⟩
  · push Not at hopen
    obtain ⟨c, hc, hopen⟩ := hopen
    obtain ⟨text, rfl⟩ := List.head?_eq_some_iff.1 hc
    simp only [isEnd, ne_eq, Bool.not_eq_false, Bool.or_eq_true, decide_eq_true_eq] at hopen
    rcases hopen with (rfl | rfl) | rfl
    · obtain ⟨ps, _ | _, behind, h⟩ := hshorter .arguments text (Nat.lt_succ_self _)
      · exact ⟨_, _, _, .brokenWithin h⟩
      · have hlt := Nat.lt_succ_of_le h.length_le.1
        obtain ⟨qs, ok, rest, hrest⟩ := hshorter (.suffix name) behind hlt
        exact ⟨_, _, _, .within h hrest⟩
    · have hlt := Nat.lt_succ_of_le (length_identifier_le isEnd text)
      obtain ⟨ps, ok, rest, h⟩ :=
        hshorter (.suffix (Nested.join name (String.ofList (identifier isEnd text).1))) _ hlt
      exact ⟨_, _, _, .inside rfl h⟩
    · exact ⟨_, _, _, .closed⟩

/-- Type arguments can begin with a type, which then has the whole text. -/
theorem answers_arguments (htype : Answers .type text) : Answers .arguments text := by
  cases text with
  | nil => exact ⟨_, _, _, .openArguments⟩
  | cons c text =>
    by_cases hclose : c = '>'
    · subst hclose
      exact ⟨_, _, _, .noMore⟩
    by_cases hany : c = '*'
    · subst hany
      obtain ⟨ps, ok, rest, h⟩ := hshorter .arguments text (Nat.lt_succ_self _)
      exact ⟨_, _, _, .any h⟩
    by_cases hsign : c = '+' ∨ c = '-'
    · obtain ⟨ps, _ | _, behind, h⟩ := hshorter .type text (Nat.lt_succ_self _)
      · exact ⟨_, _, _, .brokenSigned hsign h⟩
      · have hlt := Nat.lt_succ_of_le h.length_le.1
        obtain ⟨qs, ok, rest, hrest⟩ := hshorter .arguments behind hlt
        exact ⟨_, _, _, .signed hsign h hrest⟩
    · have hc : c ∉ ['>', '*', '+', '-'] := by simp_all
      obtain ⟨ps, _ | _, behind, h⟩ := htype
      · exact ⟨_, _, _, .brokenArgument hc h⟩
      · obtain ⟨qs, ok, rest, hrest⟩ := hshorter .arguments behind (h.length_le.2 rfl)
        exact ⟨_, _, _, .argument hc h hrest⟩

end Answers

/-- The routines for types make something of every text. -/
theorem answers (part : Part) (text : List Char) : Answers part text := by
  induction hn : text.length using Nat.strong_induction_on generalizing part text with
  | _ n ih =>
    have hshorter : ∀ part (text' : List Char), text'.length < text.length → Answers part text' :=
      fun part text' hlt => ih _ (hn ▸ hlt) part text' rfl
    cases part with
    | type => exact answers_type hshorter
    | suffix name => exact answers_suffix hshorter name
    | arguments => exact answers_arguments hshorter (answers_type hshorter)

/-- The routine for type parameters makes something of every text. -/
theorem exists_readsParameters (text : List Char) : ∃ ps rest, ReadsParameters text ps rest := by
  induction hn : text.length using Nat.strong_induction_on generalizing text with
  | _ n ih =>
    have hshorter : ∀ text' : List Char, text'.length < text.length →
        ∃ ps rest, ReadsParameters text' ps rest := fun text' hlt => ih _ (hn ▸ hlt) text' rfl
    cases text with
    | nil => exact ⟨_, _, .ended⟩
    | cons c text =>
      by_cases hclose : c = '>'
      · subst hclose
        exact ⟨_, _, .closed⟩
      by_cases hcolon : c = ':'
      · subst hcolon
        by_cases hopen : ∀ c ∈ text.head?, c ≠ ':' ∧ c ≠ '>'
        · obtain ⟨ps, _ | _, behind, h⟩ := answers .type text
          · exact ⟨_, _, .brokenBound hopen h⟩
          · obtain ⟨qs, rest, hrest⟩ := hshorter behind (Nat.lt_succ_of_le h.length_le.1)
            exact ⟨_, _, .bound hopen h hrest⟩
        · push Not at hopen
          obtain ⟨c, hc, hopen⟩ := hopen
          obtain ⟨text, rfl⟩ := List.head?_eq_some_iff.1 hc
          obtain ⟨ps, rest, h⟩ := hshorter (c :: text) (Nat.lt_succ_self _)
          exact ⟨_, _, .noBound (Decidable.or_iff_not_imp_left.2 hopen) h⟩
      · rcases hname : identifier (fun c => c = ':' || c = '>') (c :: text) with ⟨name, behind⟩
        obtain ⟨htext, -, hend⟩ := of_identifier hname
        have hlt : behind.length < (c :: text).length := by
          cases name with
          | nil =>
            -- The first character does not end a name.
            rw [List.nil_append] at htext
            have hfirst := hend c (htext ▸ rfl)
            simp [hcolon, hclose] at hfirst
          | cons d name =>
            rw [htext, List.cons_append, List.length_cons, List.length_append]
            omega
        obtain ⟨ps, rest, h⟩ := hshorter behind hlt
        exact ⟨_, _, .name ⟨hcolon, hclose⟩ hname h⟩

/-- There is a reading of every body. -/
theorem exists_readsBody (text : List Char) : ∃ ps, ReadsBody text ps := by
  induction hn : text.length using Nat.strong_induction_on generalizing text with
  | _ n ih =>
    cases text with
    | nil => exact ⟨_, .nil⟩
    | cons c text =>
      by_cases hc : c ∈ ['(', ')', '^', 'V']
      · obtain ⟨ps, h⟩ := ih _ (hn ▸ Nat.lt_succ_self _) text rfl
        exact ⟨_, .mark hc h⟩
      · obtain ⟨ps, _ | _, behind, h⟩ := answers .type (c :: text)
        · exact ⟨_, .broken hc h⟩
        · obtain ⟨qs, hrest⟩ := ih _ (hn ▸ h.length_le.2 rfl) behind rfl
          exact ⟨_, .type hc h hrest⟩

/-- So something is made of every text. -/
theorem exists_readsSignature (text : List Char) : ∃ ps, ReadsSignature text ps := by
  by_cases hopen : text.head? = some '<'
  · obtain ⟨text, rfl⟩ := List.head?_eq_some_iff.1 hopen
    obtain ⟨ps, behind, h⟩ := exists_readsParameters text
    obtain ⟨qs, hbody⟩ := exists_readsBody behind
    exact ⟨_, .generic h hbody⟩
  · obtain ⟨ps, hbody⟩ := exists_readsBody text
    exact ⟨_, .plain hopen hbody⟩

end Descent

end Crosswalk.Signature
