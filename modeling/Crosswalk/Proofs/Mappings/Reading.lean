import Crosswalk.Proofs.Mappings.Writing

/-!
# Reading mappings

A text with a header is refused only for a line that lacks something (`Mappings.Faulty`), and the
first of these lines is the one that is reported (`Mappings.ofText_eq_error_iff`). Together with
what is known of texts that mappings are written down in, this says what is read from a text and
what is not (`Mappings.lines_read_faithfully`).
-/

namespace Crosswalk.Mappings

open Lines (Plain depth cells)

variable {count : Nat}

/-! ## What is refused -/

/-- The line of a class. -/
def IsClassLine (line : String) : Prop :=
  depth line = 0 ∧ ∃ columns, cells line = "c" :: columns

/-- The line of a field or of a method, with the columns behind its kind. -/
def IsMemberLine (line : String) (columns : List String) : Prop :=
  depth line = 1 ∧ (cells line = "f" :: columns ∨ cells line = "m" :: columns)

/-- A line that cannot be read behind the lines in front of it. -/
inductive Faulty (before : List String) (line : String) : MappingProblem → Prop
  | classWithoutNames {columns : List String} (hdepth : depth line = 0)
    (hcells : cells line = "c" :: columns) (hnames : Nameless columns) :
    Faulty before line .classWithoutNames
  | memberOutsideClass {columns : List String} (hline : IsMemberLine line columns)
    (hbefore : ∀ other ∈ before, ¬IsClassLine other) : Faulty before line .memberOutsideClass
  | memberWithoutDescriptor (hline : IsMemberLine line [])
    (hbefore : ∃ other ∈ before, IsClassLine other) : Faulty before line .memberWithoutDescriptor
  | memberWithoutNames {descriptor : String} {columns : List String}
    (hline : IsMemberLine line (descriptor :: columns))
    (hbefore : ∃ other ∈ before, IsClassLine other) (hnames : Nameless columns) :
    Faulty before line .memberWithoutNames

/-- The line at a position cannot be read behind those in front of it. -/
def FaultAt (lines : List String) (i : Nat) (problem : MappingProblem) : Prop :=
  ∃ line, lines[i]? = some line ∧ Faulty (lines.take i) line problem

/-- The line at a position is the first one that cannot be read. -/
def FirstFault (lines : List String) (i : Nat) (problem : MappingProblem) : Prop :=
  FaultAt lines i problem ∧ ∀ j < i, ∀ other, ¬FaultAt lines j other

section Faults

variable {listing listing' : Listing} {line : String} {before columns : List String}
  {problem : MappingProblem}

/-- A line for a class is only refused if it has no name. -/
theorem readClass_eq_error_iff : readClass count listing columns = .error problem ↔
    Nameless columns ∧ problem = .classWithoutNames := by
  rw [readClass, ← names?_eq_none_iff count]
  cases names? count columns with
  | none => simp [eq_comm]
  | some names => simp

/-- A line for a member is refused if there is no class yet, no descriptor, or no name. -/
theorem readMember_eq_error_iff {add : ClassMapping → MemberMapping → ClassMapping} :
    readMember count add listing columns = .error problem ↔
      listing = [] ∧ problem = .memberOutsideClass ∨
      listing ≠ [] ∧ (columns = [] ∧ problem = .memberWithoutDescriptor ∨
        ∃ descriptor names, columns = descriptor :: names ∧ Nameless names ∧
          problem = .memberWithoutNames) := by
  cases listing with
  | nil => simp [readMember, eq_comm]
  | cons c listing =>
    cases columns with
    | nil => simp [readMember, member, eq_comm, bind, Except.bind]
    | cons descriptor names =>
      cases hnames : names? count names with
      | none =>
        have hnameless := (names?_eq_none_iff count).1 hnames
        simp [readMember, member, hnames, hnameless, eq_comm, bind, Except.bind]
      | some found =>
        have hnamed : ¬Nameless names := by
          rw [← names?_eq_none_iff count, hnames]
          simp
        simp [readMember, member, hnames, hnamed, bind, Except.bind, pure, Except.pure]

/-- A line speaks of one member. -/
theorem IsMemberLine.columns_eq {other : List String} (h : IsMemberLine line columns)
    (hother : IsMemberLine line other) : columns = other := by
  rcases h.2 with hf | hm
  · rcases hother.2 with hf' | hm'
    · exact (List.cons.inj (hf.symm.trans hf')).2
    · exact absurd (List.cons.inj (hf.symm.trans hm')).1 (by decide)
  · rcases hother.2 with hf' | hm'
    · exact absurd (List.cons.inj (hm.symm.trans hf')).1 (by decide)
    · exact (List.cons.inj (hm.symm.trans hm')).2

/-- A line for a class is faulty if it has no name. -/
theorem faulty_iff_of_class (hdepth : depth line = 0) (hcells : cells line = "c" :: columns) :
    Faulty before line problem ↔ Nameless columns ∧ problem = .classWithoutNames := by
  constructor
  · rintro (⟨-, hother, hnames⟩ | ⟨hline, -⟩ | ⟨hline, -⟩ | ⟨hline, -, -⟩)
    · rw [hcells] at hother
      cases hother
      exact ⟨hnames, rfl⟩
    all_goals
      have hinner := hline.1
      omega
  · rintro ⟨hnames, rfl⟩
    exact .classWithoutNames hdepth hcells hnames

/-- A line for a member is faulty if there is no class in front of it, no descriptor, or no name. -/
theorem faulty_iff_of_member (hline : IsMemberLine line columns) : Faulty before line problem ↔
    (∀ other ∈ before, ¬IsClassLine other) ∧ problem = .memberOutsideClass ∨
    (∃ other ∈ before, IsClassLine other) ∧ (columns = [] ∧ problem = .memberWithoutDescriptor ∨
      ∃ descriptor names, columns = descriptor :: names ∧ Nameless names ∧
        problem = .memberWithoutNames) := by
  constructor
  · rintro (⟨hdepth, -, -⟩ | ⟨-, hbefore⟩ | ⟨hother, hbefore⟩ | ⟨hother, hbefore, hnames⟩)
    · have hinner := hline.1
      omega
    · exact .inl ⟨hbefore, rfl⟩
    · exact .inr ⟨hbefore, .inl ⟨hline.columns_eq hother, rfl⟩⟩
    · exact .inr ⟨hbefore, .inr ⟨_, _, hline.columns_eq hother, hnames, rfl⟩⟩
  · rintro (⟨hbefore, rfl⟩ | ⟨hbefore, ⟨rfl, rfl⟩ | ⟨descriptor, names, rfl, hnames, rfl⟩⟩)
    · exact .memberOutsideClass hline hbefore
    · exact .memberWithoutDescriptor hline hbefore
    · exact .memberWithoutNames hline hbefore hnames

/-- A line is refused exactly if it is faulty behind the lines in front of it. Of these it only
matters whether a class was among them. -/
theorem readLine_eq_error_iff (count : Nat)
    (hlisting : listing = [] ↔ ∀ other ∈ before, ¬IsClassLine other) :
    readLine count listing line = .error problem ↔ Faulty before line problem := by
  have hsome : listing ≠ [] ↔ ∃ other ∈ before, IsClassLine other := by
    rw [ne_eq, hlisting]
    push Not
    rfl
  rw [readLine_eq]
  split
  · next hdepth hcells => rw [readClass_eq_error_iff, faulty_iff_of_class hdepth hcells]
  · next hdepth hcells =>
    rw [readMember_eq_error_iff, faulty_iff_of_member ⟨hdepth, .inl hcells⟩, hsome, hlisting]
  · next hdepth hcells =>
    rw [readMember_eq_error_iff, faulty_iff_of_member ⟨hdepth, .inr hcells⟩, hsome, hlisting]
  · next hclass hfield hmethod =>
    -- The line means nothing, so it is no line that could be faulty.
    have hmember : ∀ columns, ¬IsMemberLine line columns := by
      rintro columns ⟨hdepth, hcells | hcells⟩
      · exact hfield columns hdepth hcells
      · exact hmethod columns hdepth hcells
    constructor
    · intro h
      cases h
    · rintro (⟨hdepth, hcells, -⟩ | ⟨hline, -⟩ | ⟨hline, -⟩ | ⟨hline, -, -⟩)
      · exact absurd hcells (hclass _ hdepth)
      all_goals exact absurd hline (hmember _)

/-- A member needs a class, which stays. -/
theorem ne_nil_of_readMember {add : ClassMapping → MemberMapping → ClassMapping}
    (h : readMember count add listing columns = .ok listing') : listing ≠ [] ∧ listing' ≠ [] := by
  cases listing with
  | nil => cases h
  | cons c listing =>
    obtain ⟨m, -, hadd⟩ := map_eq_ok_iff.1 h
    rw [← hadd]
    exact ⟨List.cons_ne_nil _ _, List.cons_ne_nil _ _⟩

/-- A class is listed behind a line if one was listed in front of it, or if the line is that of a
class. -/
theorem eq_nil_iff_of_readLine (h : readLine count listing line = .ok listing') :
    listing' = [] ↔ listing = [] ∧ ¬IsClassLine line := by
  rw [readLine_eq] at h
  split at h
  · next columns hdepth hcells =>
    rw [readClass] at h
    split at h
    · cases h
      simp [IsClassLine, hdepth, hcells]
    · cases h
  · simp [ne_nil_of_readMember h]
  · simp [ne_nil_of_readMember h]
  · next hclass _ _ =>
    cases h
    have hline : ¬IsClassLine line := by
      rintro ⟨hdepth, columns, hcells⟩
      exact hclass columns hdepth hcells
    simp [hline]

/-- Whether there is a fault in a line depends on what is in front of it only. -/
theorem faultAt_length_iff {more : List String} :
    FaultAt (before ++ line :: more) before.length problem ↔ Faulty before line problem := by
  have hline : (before ++ line :: more)[before.length]? = some line := by simp
  rw [FaultAt, hline, List.take_left]
  constructor
  · rintro ⟨other, hother, hfaulty⟩
    cases hother
    exact hfaulty
  · intro hfaulty
    exact ⟨line, rfl, hfaulty⟩

/-- There is one first fault. -/
theorem FirstFault.unique {lines : List String} {i j : Nat} {other : MappingProblem}
    (h : FirstFault lines i problem) (hother : FirstFault lines j other) : i = j := by
  rcases Nat.lt_trichotomy i j with hlt | heq | hgt
  · exact absurd h.1 (hother.2 i hlt problem)
  · exact heq
  · exact absurd hother.1 (h.2 j hgt other)

/-- What is reported is the first line that is faulty behind those in front of it. -/
theorem readLines_eq_error_iff {lines more : List String} {fault : MappingFault}
    (hlines : lines = before ++ more)
    (hlisting : listing = [] ↔ ∀ other ∈ before, ¬IsClassLine other)
    (hbefore : ∀ j < before.length, ∀ other, ¬FaultAt lines j other) :
    readLines count listing (before.length + 2) more = .error fault ↔
      ∃ i problem, fault = .malformed (i + 2) problem ∧ FirstFault lines i problem := by
  -- The lines are taken from the front, and none of those that are behind us is faulty.
  induction more generalizing listing before with
  | nil =>
    constructor
    · intro h
      cases h
    · rintro ⟨i, problem, -, ⟨⟨line, hline, hfaulty⟩, -⟩⟩
      obtain ⟨hi, -⟩ := List.getElem?_eq_some_iff.1 hline
      rw [hlines, List.append_nil] at hi
      exact absurd ⟨line, hline, hfaulty⟩ (hbefore i hi problem)
  | cons line more ih =>
    have hhere : ∀ problem, FaultAt lines before.length problem ↔ Faulty before line problem := by
      intro problem
      rw [hlines]
      exact faultAt_length_iff
    cases hread : readLine count listing line with
    | error problem =>
      have hfault := (hhere problem).2 ((readLine_eq_error_iff count hlisting).1 hread)
      have hfirst : FirstFault lines before.length problem := ⟨hfault, hbefore⟩
      have hreads : readLines count listing (before.length + 2) (line :: more) =
          .error (.malformed (before.length + 2) problem) := by
        rw [readLines, hread]
      rw [hreads]
      constructor
      · intro h
        cases h
        exact ⟨_, problem, rfl, hfirst⟩
      · rintro ⟨i, other, rfl, hother⟩
        -- There is only one first fault, and a line is refused for one reason only.
        obtain rfl := hother.unique hfirst
        have hsame := (readLine_eq_error_iff count hlisting).2 ((hhere other).1 hother.1)
        rw [hread] at hsame
        cases hsame
        rfl
    | ok next =>
      have hnofault : ∀ problem, ¬FaultAt lines before.length problem := by
        intro problem hfault
        have herror := (readLine_eq_error_iff count hlisting).2 ((hhere problem).1 hfault)
        rw [hread] at herror
        cases herror
      have hlength : before.length + 2 + 1 = (before ++ [line]).length + 2 := by
        rw [List.length_append, List.length_singleton]
      rw [readLines_cons hread, hlength]
      apply ih
      · rw [hlines, List.append_assoc]
        rfl
      · -- The listing still tells whether there was a class.
        rw [eq_nil_iff_of_readLine hread, hlisting]
        simp [or_imp, forall_and]
      · intro j hj
        rw [List.length_append, List.length_singleton] at hj
        rcases Nat.lt_succ_iff_lt_or_eq.1 hj with hlt | rfl
        · exact hbefore j hlt
        · exact hnofault

end Faults

/-! ## Both -/

/-- If a line is faulty, then one of them is the first. -/
theorem exists_firstFault {lines : List String} {i : Nat} {problem : MappingProblem}
    (h : FaultAt lines i problem) : ∃ j other, FirstFault lines j other := by
  induction i using Nat.strong_induction_on generalizing problem with
  | _ i ih =>
    by_cases hfirst : ∀ j < i, ∀ other, ¬FaultAt lines j other
    · exact ⟨i, problem, h, hfirst⟩
    · push Not at hfirst
      obtain ⟨j, hj, other, hother⟩ := hfirst
      exact ih j hj hother

/-- Behind a header, a fault is that of the first faulty line. -/
theorem ofText_eq_error_iff {text header minor : String} {namespaces lines : List String}
    (htext : Lines.ofText text = header :: lines)
    (hheader : Lines.columns header = "tiny" :: "2" :: minor :: namespaces)
    (hne : namespaces ≠ []) (fault : MappingFault) : ofText text = .error fault ↔
      ∃ i problem, fault = .malformed (i + 2) problem ∧ FirstFault lines i problem := by
  have hlines : readLines namespaces.length [] 2 lines = .error fault ↔
      ∃ i problem, fault = .malformed (i + 2) problem ∧ FirstFault lines i problem := by
    have hbefore : lines = [] ++ lines := rfl
    exact readLines_eq_error_iff hbefore (by simp) (by simp)
  rw [← hlines, (ofText_of_header htext hheader hne).1]

/-- Mappings are read from every text in which they are written down. A text with a header is
refused exactly if some line is faulty, and then the first of them is reported. -/
theorem lines_read_faithfully :
    (∀ (m : Mappings) (text : String), IsPlain m → Rendering m text → ofText text = .ok m) ∧
    ∀ (text header minor : String) (namespaces lines : List String),
      Lines.ofText text = header :: lines →
      Lines.columns header = "tiny" :: "2" :: minor :: namespaces → namespaces ≠ [] →
      ((∃ fault, ofText text = .error fault) ↔ ∃ i problem, FaultAt lines i problem) ∧
      ∀ fault, ofText text = .error fault ↔
        ∃ i problem, fault = .malformed (i + 2) problem ∧ FirstFault lines i problem := by
  refine ⟨fun m text hm h => ofText_of_rendering hm h, ?_⟩
  intro text header minor namespaces lines htext hheader hne
  have hfault := ofText_eq_error_iff htext hheader hne
  refine ⟨?_, hfault⟩
  constructor
  · rintro ⟨fault, h⟩
    obtain ⟨i, problem, -, hfirst⟩ := (hfault fault).1 h
    exact ⟨i, problem, hfirst.1⟩
  · rintro ⟨i, problem, h⟩
    obtain ⟨j, other, hfirst⟩ := exists_firstFault h
    exact ⟨_, (hfault _).2 ⟨j, other, rfl, hfirst⟩⟩

/-- Two classes, of which only the first one has members. -/
def screens : Mappings where
  namespaces := ["official", "intermediary", "named"]
  classes := [
    ⟨["dxq", "class_437", "Screen"], [⟨"I", ["b", "field_22789", "width"]⟩],
      [⟨"(Ldxq;)V", ["a", "method_25426", "init"]⟩]⟩,
    ⟨["dxr", "class_5641", "dxr"], [], []⟩]

def screensText : String :=
  "tiny\t2\t0\tofficial\tintermediary\tnamed\r\n" ++
  "c\tdxq\tclass_437\tScreen\n" ++
  "\tc\tA screen\n" ++
  "\tm\t(Ldxq;)V\ta\tmethod_25426\tinit\n" ++
  "\t\tp\t1\t\t\tparent\n" ++
  "\tf\tI\tb\tfield_22789\twidth\r\n" ++
  "\n" ++
  "c\tdxr\tclass_5641\t"

/-- The names have neither tabs nor line breaks. -/
theorem isPlain_screens : IsPlain screens where
  someNamespace := by decide
  namespaces := by decide
  classes := by
    rw [screens, List.forall_mem_cons, List.forall_mem_singleton]
    exact ⟨⟨by decide, by decide, by decide⟩, ⟨by decide, by decide, by decide⟩⟩

/-- The text is a rendering of the mappings. -/
theorem rendering_screens : Rendering screens screensText := by
  have hcomment : Skipped "\tc\tA screen" := .inner (by decide) (by decide)
  have hparameter : Skipped "\t\tp\t1\t\t\tparent" := .deep (by decide)
  have hblank : Skipped "" := .outer (by decide) (by decide)
  have hall : ∀ first second third : String,
      Spells [first, second, third] [first, second, third] := by
    intro first second third
    exact .intro (.written second (.written third (.missing (by simp))))
  have hempty : Spells ["dxr", "class_5641", "dxr"] ["dxr", "class_5641", ""] :=
    .intro (.written "class_5641" (.empty (.missing (by simp))))
  have hmembers : MemberLines [⟨"I", ["b", "field_22789", "width"]⟩]
      [⟨"(Ldxq;)V", ["a", "method_25426", "init"]⟩] _ :=
    .skipped hcomment (.method (hall ..) (.skipped hparameter (.field (hall ..)
      (.skipped hblank .nil))))
  have hclasses : ClassLines screens.classes _ :=
    .cons (hall ..) hmembers (.cons hempty .nil .nil)
  have hminor : Plain "0" := by decide
  refine ⟨hminor, hclasses, Lines.ofText_eq_iff.1 ?_⟩
  decide +kernel

/-- A method in front of all classes. -/
def strayText : String :=
  "tiny\t2\t0\ta\tb\n\tm\t()V\tx\ty\n"

theorem lines_read_faithfully_screens :
    IsPlain screens ∧ Rendering screens screensText ∧ ofText screensText = .ok screens ∧
    Lines.ofText strayText = ["tiny\t2\t0\ta\tb", "\tm\t()V\tx\ty"] ∧
    Lines.columns "tiny\t2\t0\ta\tb" = ["tiny", "2", "0", "a", "b"] ∧ ["a", "b"] ≠ [] ∧
    ofText strayText = .error (.malformed 2 .memberOutsideClass) := by
  have htext : Lines.ofText strayText = ["tiny\t2\t0\ta\tb", "\tm\t()V\tx\ty"] := by
    decide +kernel
  have hheader : Lines.columns "tiny\t2\t0\ta\tb" = ["tiny", "2", "0", "a", "b"] := by decide
  have hne : ["a", "b"] ≠ [] := by decide
  have hline : IsMemberLine "\tm\t()V\tx\ty" ["()V", "x", "y"] := ⟨by decide, .inr (by decide)⟩
  have hfirst : FirstFault ["\tm\t()V\tx\ty"] 0 .memberOutsideClass :=
    ⟨⟨_, rfl, .memberOutsideClass hline (by simp)⟩, by simp⟩
  have hfault := (lines_read_faithfully.2 _ _ _ _ _ htext hheader hne).2
  exact ⟨isPlain_screens, rendering_screens,
    lines_read_faithfully.1 _ _ isPlain_screens rendering_screens,
    htext, hheader, hne, (hfault _).2 ⟨0, _, rfl, hfirst⟩⟩

end Crosswalk.Mappings
