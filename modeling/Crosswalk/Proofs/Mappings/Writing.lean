import Crosswalk.Mappings.Reading
import Crosswalk.Proofs.Outcome
import Crosswalk.Proofs.Text.Lines

/-!
# Writing mappings down

Mappings can be written down in many ways (`Mappings.Rendering`): a name that is that of the first
namespace can be left empty, fields and methods can be mixed, and lines that mean nothing can stand
anywhere behind the header. Whatever is plain can be written down (`Mappings.exists_rendering`), and
it is read back whichever way was chosen (`Mappings.ofText_of_rendering`).
-/

namespace Crosswalk.Mappings

open Lines (Plain row depth cells)

variable {count : Nat}

/-! ## Names -/

/-- A name for each of `count` namespaces. -/
def Named (count : Nat) (names : List String) : Prop :=
  names.length = count ∧ ∀ name ∈ names, name ≠ "" ∧ Plain name

instance (count : Nat) (names : List String) : Decidable (Named count names) :=
  inferInstanceAs (Decidable (names.length = count ∧ ∀ name ∈ names, name ≠ "" ∧ Plain name))

/-- Columns for the names behind the first one. Those that are equal to the first one can be empty,
and at the end they can be missing. -/
inductive SpellsLater (first : String) : List String → List String → Prop
  | missing {names : List String} (h : ∀ name ∈ names, name = first) : SpellsLater first names []
  | empty {names columns : List String} (h : SpellsLater first names columns) :
    SpellsLater first (first :: names) ("" :: columns)
  | written (name : String) {names columns : List String} (h : SpellsLater first names columns) :
    SpellsLater first (name :: names) (name :: columns)

/-- Columns for names. -/
inductive Spells : List String → List String → Prop
  | intro {first : String} {names columns : List String} (h : SpellsLater first names columns) :
    Spells (first :: names) (first :: columns)

/-- A later name is in its column, or it is the first one and its column is empty or missing. -/
theorem getElem?_of_spellsLater {first : String} {names columns : List String}
    (h : SpellsLater first names columns) {i : Nat} (hi : i < names.length) :
    columns[i]? = some names[i] ∨
      names[i] = first ∧ (columns[i]? = none ∨ columns[i]? = some "") := by
  induction h generalizing i with
  | missing hsame => exact .inr ⟨hsame _ (List.getElem_mem hi), .inl rfl⟩
  | empty _ ih =>
    cases i with
    | zero => exact .inr ⟨rfl, .inr rfl⟩
    | succ i => exact ih (Nat.lt_of_succ_lt_succ hi)
  | written name _ ih =>
    cases i with
    | zero => exact .inl rfl
    | succ i => exact ih (Nat.lt_of_succ_lt_succ hi)

/-- Names are read from any columns that spell them. -/
theorem names?_of_spells {names columns : List String} (h : Spells names columns)
    (hnamed : Named count names) : names? count columns = some names := by
  obtain ⟨rfl, hnames⟩ := hnamed
  cases h with
  | @intro first names columns h =>
    have hfirst : ¬first.isEmpty = true := by
      simpa using (hnames first List.mem_cons_self).1
    rw [names?, if_neg hfirst, Option.some_inj]
    apply List.ext_getElem (by simp)
    intro i _ hi
    rw [List.getElem_map, List.getElem_range]
    -- The first column has the name that stands in for all others, so only these fall into cases.
    cases i with
    | zero => simp
    | succ i =>
      have hlater : i < names.length := Nat.lt_of_succ_lt_succ hi
      have hne : names[i] ≠ "" := (hnames _ (List.mem_cons_of_mem _ (List.getElem_mem hlater))).1
      rw [List.getElem?_cons_succ, List.getElem_cons_succ]
      rcases getElem?_of_spellsLater h hlater with hsome | ⟨hsame, hnone | hempty⟩
      · simp [hsome, hne]
      · simp [hnone, hsame]
      · simp [hempty, hsame]

/-- The columns are plain if the names are. -/
theorem plain_of_spellsLater {first : String} {names columns : List String}
    (h : SpellsLater first names columns) (hplain : ∀ name ∈ names, Plain name) :
    ∀ column ∈ columns, Plain column := by
  induction h with
  | missing _ => simp
  | empty _ ih =>
    rw [List.forall_mem_cons] at hplain ⊢
    exact ⟨by decide, ih hplain.2⟩
  | written name _ ih =>
    rw [List.forall_mem_cons] at hplain ⊢
    exact ⟨hplain.1, ih hplain.2⟩

theorem plain_of_spells {names columns : List String} (h : Spells names columns)
    (hnamed : Named count names) : ∀ column ∈ columns, Plain column := by
  have hplain : ∀ name ∈ names, Plain name := fun name hname => (hnamed.2 name hname).2
  cases h with
  | intro h =>
    rw [List.forall_mem_cons] at hplain ⊢
    exact ⟨hplain.1, plain_of_spellsLater h hplain.2⟩

/-- Columns without a first name. -/
def Nameless (columns : List String) : Prop :=
  columns.head?.getD "" = ""

/-- Columns are refused if the first one is missing or empty. -/
theorem names?_eq_none_iff (count : Nat) {columns : List String} :
    names? count columns = none ↔ Nameless columns := by
  cases columns with
  | nil => simp [names?, Nameless]
  | cons first columns => simp [names?, Nameless]

/-! ## One line -/

/-- What a line is taken for depends on the tabs in front of it and on the column behind them. -/
theorem readLine_eq (listing : Listing) (line : String) :
    readLine count listing line = match depth line, cells line with
      | 0, "c" :: columns => readClass count listing columns
      | 1, "f" :: columns => readMember count addField listing columns
      | 1, "m" :: columns => readMember count addMethod listing columns
      | _, _ => .ok listing := by
  rw [readLine, Lines.columns_eq]
  rcases depth line with _ | _ | d
  case zero =>
    rw [List.replicate_zero, List.nil_append]
    cases hcells : cells line with
    | nil => rfl
    | cons kind rest =>
      -- An empty column would stand for a tab, but here it is the whole line.
      by_cases hkind : kind = ""
      · subst hkind
        rw [Lines.cells_of_empty hcells]
        rfl
      · split
        · next heq => simp [List.cons.inj heq]
        · next heq => exact absurd (List.cons.inj heq).1 hkind
        · next heq => exact absurd (List.cons.inj heq).1 hkind
        · next hclass _ _ =>
          split
          · next heq => exact absurd heq (hclass _)
          · omega
          · omega
          · rfl
  case succ.zero =>
    have hcolumns : List.replicate (0 + 1) "" ++ cells line = "" :: cells line := rfl
    rw [hcolumns]
    split
    · next heq => exact absurd (List.cons.inj heq).1 (by decide)
    · next heq =>
      rw [(List.cons.inj heq).2]
      rfl
    · next heq =>
      rw [(List.cons.inj heq).2]
      rfl
    · next _ hfield hmethod =>
      split
      · omega
      · next heq => exact absurd (congrArg ("" :: ·) heq) (hfield _)
      · next heq => exact absurd (congrArg ("" :: ·) heq) (hmethod _)
      · rfl
  case succ.succ =>
    have hcolumns : List.replicate (d + 1 + 1) "" ++ cells line =
      "" :: "" :: (List.replicate d "" ++ cells line) := rfl
    rw [hcolumns]
    rfl

/-- A line that means nothing. -/
inductive Skipped (line : String) : Prop
  | outer (hdepth : depth line = 0) (hkind : (cells line).head? ≠ some "c")
  | inner (hdepth : depth line = 1)
    (hkind : (cells line).head? ≠ some "f" ∧ (cells line).head? ≠ some "m")
  | deep (hdepth : 2 ≤ depth line)

/-- A line that is skipped adds nothing. -/
theorem readLine_of_skipped {line : String} (h : Skipped line) (listing : Listing) :
    readLine count listing line = .ok listing := by
  rw [readLine_eq]
  cases h with
  | outer hdepth hkind =>
    split
    · next hcells => simp [hcells] at hkind
    · omega
    · omega
    · rfl
  | inner hdepth hkind =>
    split
    · omega
    · next hcells => simp [hcells] at hkind
    · next hcells => simp [hcells] at hkind
    · rfl
  | deep hdepth =>
    split
    · omega
    · omega
    · omega
    · rfl

/-- The line of a class. -/
def classRow (columns : List String) : String :=
  row ("c" :: columns)

/-- The line of a field or of a method. -/
def memberRow (kind : String) (descriptor : String) (columns : List String) : String :=
  row ("" :: kind :: descriptor :: columns)

/-- A member that can be written down. -/
def MemberPlain (count : Nat) (m : MemberMapping) : Prop :=
  Plain m.descriptor ∧ Named count m.names

instance (count : Nat) (m : MemberMapping) : Decidable (MemberPlain count m) :=
  inferInstanceAs (Decidable (Plain m.descriptor ∧ Named count m.names))

section Rows

variable {listing : Listing} {c : ClassMapping} {m : MemberMapping} {columns : List String}

/-- The line of a plain class is plain. -/
theorem plain_classRow (h : Spells c.names columns) (hnamed : Named count c.names) :
    ∀ column ∈ "c" :: columns, Plain column := by
  rw [List.forall_mem_cons]
  exact ⟨by decide, plain_of_spells h hnamed⟩

theorem plain_memberRow {kind : String} (hkind : Plain kind) (h : Spells m.names columns)
    (hm : MemberPlain count m) :
    ∀ column ∈ "" :: kind :: m.descriptor :: columns, Plain column := by
  rw [List.forall_mem_cons, List.forall_mem_cons, List.forall_mem_cons]
  exact ⟨by decide, hkind, hm.1, plain_of_spells h hm.2⟩

/-- The line of a class adds the class. -/
theorem readLine_classRow (h : Spells c.names columns) (hnamed : Named count c.names) :
    readLine count listing (classRow columns) = .ok (⟨c.names, [], []⟩ :: listing) := by
  rw [readLine, classRow, Lines.columns_row_of_plain (by simp) (plain_classRow h hnamed)]
  show readClass count listing columns = _
  rw [readClass, names?_of_spells h hnamed]

/-- The line of a member adds it to the class in front. -/
theorem readMember_of_spells (add : ClassMapping → MemberMapping → ClassMapping)
    (h : Spells m.names columns) (hm : MemberPlain count m) :
    readMember count add (c :: listing) (m.descriptor :: columns) = .ok (add c m :: listing) := by
  rw [readMember, member, names?_of_spells h hm.2]
  rfl

theorem readLine_fieldRow (h : Spells m.names columns) (hm : MemberPlain count m) :
    readLine count (c :: listing) (memberRow "f" m.descriptor columns) =
      .ok (addField c m :: listing) := by
  rw [readLine, memberRow,
    Lines.columns_row_of_plain (by simp) (plain_memberRow (by decide) h hm)]
  exact readMember_of_spells addField h hm

theorem readLine_methodRow (h : Spells m.names columns) (hm : MemberPlain count m) :
    readLine count (c :: listing) (memberRow "m" m.descriptor columns) =
      .ok (addMethod c m :: listing) := by
  rw [readLine, memberRow,
    Lines.columns_row_of_plain (by simp) (plain_memberRow (by decide) h hm)]
  exact readMember_of_spells addMethod h hm

end Rows

/-! ## Texts -/

/-- Lines for the fields and the methods of a class, in any order that keeps that of the fields and
that of the methods. -/
inductive MemberLines : List MemberMapping → List MemberMapping → List String → Prop
  | nil : MemberLines [] [] []
  | skipped {fields methods : List MemberMapping} {line : String} {lines : List String}
    (hline : Skipped line) (h : MemberLines fields methods lines) :
    MemberLines fields methods (line :: lines)
  | field {m : MemberMapping} {columns : List String} {fields methods : List MemberMapping}
    {lines : List String} (hnames : Spells m.names columns) (h : MemberLines fields methods lines) :
    MemberLines (m :: fields) methods (memberRow "f" m.descriptor columns :: lines)
  | method {m : MemberMapping} {columns : List String} {fields methods : List MemberMapping}
    {lines : List String} (hnames : Spells m.names columns) (h : MemberLines fields methods lines) :
    MemberLines fields (m :: methods) (memberRow "m" m.descriptor columns :: lines)

/-- Lines for classes, each with its members behind it. -/
inductive ClassLines : List ClassMapping → List String → Prop
  | nil : ClassLines [] []
  | skipped {classes : List ClassMapping} {line : String} {lines : List String}
    (hline : Skipped line) (h : ClassLines classes lines) :
    ClassLines classes (line :: lines)
  | cons {c : ClassMapping} {columns : List String} {classes : List ClassMapping}
    {lines more : List String} (hnames : Spells c.names columns)
    (hmembers : MemberLines c.fields c.methods lines) (h : ClassLines classes more) :
    ClassLines (c :: classes) (classRow columns :: (lines ++ more))

/-- The line in front of the classes. -/
def headerRow (minor : String) (namespaces : List String) : String :=
  row ("tiny" :: "2" :: minor :: namespaces)

/-- A text in which mappings are written down. -/
inductive Rendering (m : Mappings) (text : String) : Prop
  | intro {minor : String} {lines : List String} (hminor : Plain minor)
    (hclasses : ClassLines m.classes lines)
    (htext : Lines.Written text (headerRow minor m.namespaces :: lines))

/-- A class that can be written down. -/
structure ClassPlain (count : Nat) (c : ClassMapping) : Prop where
  names : Named count c.names
  fields : ∀ m ∈ c.fields, MemberPlain count m
  methods : ∀ m ∈ c.methods, MemberPlain count m

/-- Mappings that can be written down. -/
structure IsPlain (m : Mappings) : Prop where
  someNamespace : m.namespaces ≠ []
  namespaces : ∀ name ∈ m.namespaces, Plain name
  classes : ∀ c ∈ m.classes, ClassPlain m.namespaces.length c

section Writing

variable {m : Mappings}

/-- Names spell themselves. -/
theorem spells_self {names : List String} (h : Named count names) (hcount : count ≠ 0) :
    Spells names names := by
  have hlater : ∀ first : String, ∀ names : List String, SpellsLater first names names := by
    intro first names
    induction names with
    | nil => exact .missing (by simp)
    | cons name names ih => exact .written name ih
  cases names with
  | nil => exact absurd h.1.symm hcount
  | cons first names => exact .intro (hlater first names)

/-- There are lines for any plain members. -/
theorem exists_memberLines {fields methods : List MemberMapping} (hcount : count ≠ 0)
    (hfields : ∀ m ∈ fields, MemberPlain count m) (hmethods : ∀ m ∈ methods, MemberPlain count m) :
    ∃ lines, MemberLines fields methods lines ∧
      ∀ line ∈ lines, '\n' ∉ line.toList ∧ '\r' ∉ line.toList := by
  -- All fields go in front of the methods, which is one of the orders.
  induction fields with
  | cons m fields ih =>
    rw [List.forall_mem_cons] at hfields
    obtain ⟨lines, hlines, hends⟩ := ih hfields.2
    have hnames := spells_self hfields.1.2 hcount
    refine ⟨_, .field hnames hlines, ?_⟩
    rw [List.forall_mem_cons]
    exact ⟨Lines.row_of_plain (plain_memberRow (by decide) hnames hfields.1), hends⟩
  | nil =>
    induction methods with
    | cons m methods ih =>
      rw [List.forall_mem_cons] at hmethods
      obtain ⟨lines, hlines, hends⟩ := ih hmethods.2
      have hnames := spells_self hmethods.1.2 hcount
      refine ⟨_, .method hnames hlines, ?_⟩
      rw [List.forall_mem_cons]
      exact ⟨Lines.row_of_plain (plain_memberRow (by decide) hnames hmethods.1), hends⟩
    | nil => exact ⟨[], .nil, by simp⟩

/-- There are lines for any plain classes. -/
theorem exists_classLines {classes : List ClassMapping} (hcount : count ≠ 0)
    (hclasses : ∀ c ∈ classes, ClassPlain count c) : ∃ lines, ClassLines classes lines ∧
      ∀ line ∈ lines, '\n' ∉ line.toList ∧ '\r' ∉ line.toList := by
  induction classes with
  | nil => exact ⟨[], .nil, by simp⟩
  | cons c classes ih =>
    rw [List.forall_mem_cons] at hclasses
    have hc := hclasses.1
    obtain ⟨more, hmore, hmoreEnds⟩ := ih hclasses.2
    obtain ⟨lines, hlines, hends⟩ := exists_memberLines hcount hc.fields hc.methods
    have hnames := spells_self hc.names hcount
    refine ⟨_, .cons hnames hlines hmore, ?_⟩
    rw [List.forall_mem_cons, List.forall_mem_append]
    exact ⟨Lines.row_of_plain (plain_classRow hnames hc.names), hends, hmoreEnds⟩

/-- The header of plain namespaces is plain. -/
theorem plain_headerRow (hm : IsPlain m) {minor : String} (hminor : Plain minor) :
    ∀ column ∈ "tiny" :: "2" :: minor :: m.namespaces, Plain column := by
  rw [List.forall_mem_cons, List.forall_mem_cons, List.forall_mem_cons]
  exact ⟨by decide, by decide, hminor, hm.namespaces⟩

/-- Whatever is plain can be written down. -/
theorem exists_rendering (hm : IsPlain m) : ∃ text, Rendering m text := by
  have hcount : m.namespaces.length ≠ 0 := by
    simpa using hm.someNamespace
  obtain ⟨lines, hlines, hends⟩ := exists_classLines hcount hm.classes
  have hminor : Plain "0" := by decide
  have htext : ∃ text, Lines.Written text (headerRow "0" m.namespaces :: lines) := by
    apply Lines.exists_written
    rw [List.forall_mem_cons]
    exact ⟨Lines.row_of_plain (plain_headerRow hm hminor), hends⟩
  obtain ⟨text, htext⟩ := htext
  exact ⟨text, hminor, hlines, htext⟩

end Writing

/-! ## Reading back -/

section Runs

variable {listing listing' : Listing} {line : String} {lines : List String}

/-- A line that is read is followed by the others. -/
theorem readLines_cons (h : readLine count listing line = .ok listing') (number : Nat) :
    readLines count listing number (line :: lines) =
      readLines count listing' (number + 1) lines := by
  rw [readLines, h]

/-- Lines may be read in two parts. -/
theorem readLines_append {number : Nat} (h : readLines count listing number lines = .ok listing')
    (more : List String) : readLines count listing number (lines ++ more) =
      readLines count listing' (number + lines.length) more := by
  induction lines generalizing listing number with
  | nil =>
    cases h
    rfl
  | cons line lines ih =>
    rw [readLines] at h
    cases hline : readLine count listing line with
    | error problem => simp [hline] at h
    | ok next =>
      rw [hline] at h
      rw [List.cons_append, readLines_cons hline, ih h, List.length_cons]
      congr 1
      omega

/-- The lines of members are read into the class in front of them. -/
theorem readLines_of_memberLines {fields methods : List MemberMapping}
    (h : MemberLines fields methods lines) (hfields : ∀ m ∈ fields, MemberPlain count m)
    (hmethods : ∀ m ∈ methods, MemberPlain count m) (c : ClassMapping) (listing : Listing)
    (number : Nat) : readLines count (c :: listing) number lines =
      .ok (⟨c.names, c.fields ++ fields, c.methods ++ methods⟩ :: listing) := by
  -- A member goes behind those that are already there, so the class grows from line to line.
  induction h generalizing c number with
  | nil => simp [readLines]
  | skipped hline _ ih =>
    rw [readLines_cons (readLine_of_skipped hline _), ih hfields hmethods]
  | field hnames _ ih =>
    rw [List.forall_mem_cons] at hfields
    rw [readLines_cons (readLine_fieldRow hnames hfields.1), ih hfields.2 hmethods]
    simp [addField]
  | method hnames _ ih =>
    rw [List.forall_mem_cons] at hmethods
    rw [readLines_cons (readLine_methodRow hnames hmethods.1), ih hfields hmethods.2]
    simp [addMethod]

/-- The lines of classes are read into a listing of them. -/
theorem readLines_of_classLines {classes : List ClassMapping} (h : ClassLines classes lines)
    (hclasses : ∀ c ∈ classes, ClassPlain count c) (number : Nat) :
    readLines count listing number lines = .ok (classes.reverse ++ listing) := by
  induction h generalizing listing number with
  | nil => rfl
  | skipped hline _ ih =>
    rw [readLines_cons (readLine_of_skipped hline _), ih hclasses]
  | @cons c columns classes lines more hnames hmembers _ ih =>
    rw [List.forall_mem_cons] at hclasses
    have hc := hclasses.1
    -- The members find the class that they belong to in front of the listing.
    have hread := readLines_of_memberLines hmembers hc.fields hc.methods ⟨c.names, [], []⟩ listing
      (number + 1)
    rw [readLines_cons (readLine_classRow hnames hc.names), readLines_append hread,
      ih hclasses.2, List.reverse_cons, List.append_assoc]
    rfl

/-- Behind a header, everything depends on the lines. -/
theorem ofText_of_header {text header minor : String} {namespaces : List String}
    (htext : Lines.ofText text = header :: lines)
    (hheader : Lines.columns header = "tiny" :: "2" :: minor :: namespaces)
    (hne : namespaces ≠ []) :
    (∀ fault, ofText text = .error fault ↔ readLines namespaces.length [] 2 lines = .error fault) ∧
    ∀ m, ofText text = .ok m ↔
      m.namespaces = namespaces ∧ readLines namespaces.length [] 2 lines =
      .ok m.classes.reverse := by
  obtain ⟨first, rest, rfl⟩ := List.exists_cons_of_ne_nil hne
  have hnamespaces : header? header = some (first :: rest) := by
    rw [header?, hheader]
    rfl
  rw [ofText, htext]
  simp only [hnamespaces]
  split
  · next hread =>
    rw [hread]
    simp
  · next listing hread =>
    refine ⟨fun fault => iff_of_false (by simp) (by rw [hread]; simp), fun m => ?_⟩
    simp only [Except.ok.injEq, Mappings.ext_iff]
    rw [hread, Except.ok.injEq]
    exact and_congr eq_comm List.reverse_eq_iff

/-- Mappings are read from any text in which they are written down. -/
theorem ofText_of_rendering {m : Mappings} {text : String} (hm : IsPlain m) (h : Rendering m text) :
    ofText text = .ok m := by
  cases h with
  | @intro minor lines hminor hclasses htext =>
    have hheader := Lines.columns_row_of_plain (by simp) (plain_headerRow hm hminor)
    rw [(ofText_of_header (Lines.ofText_eq_iff.2 htext) hheader hm.someNamespace).2,
      readLines_of_classLines hclasses hm.classes, List.append_nil]
    exact ⟨rfl, rfl⟩

end Runs

end Crosswalk.Mappings
