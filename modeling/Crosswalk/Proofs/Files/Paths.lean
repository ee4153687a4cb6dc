import Mathlib.Data.List.Basic
import Crosswalk.Files.FileSystem
import Crosswalk.Names.ClassName

/-!
# Where paths lead, as texts

What counts about a path is whether it is absolute and which parts stand between its slashes. Both
ways of going on from a base append to its parts: `Path.join` does so for a path that is not
absolute, and `Path.below` drops what could lead elsewhere first. A path that goes on with names
alone lies below its base (`Path.under_join`).
-/

namespace Crosswalk

namespace Path

/-! ## Parts -/

/-- What stands between the slashes of a path, unless it is empty. -/
def parts (path : String) : List String :=
  (segments path).filter (· != "")

/-- The parts of a path that lead to names. -/
def names (path : String) : List String :=
  (segments path).filter isName

/-- The segments of two paths come one after the other. -/
theorem segments_append (a b : String) : segments (a ++ "/" ++ b) = segments a ++ segments b := by
  have htext : (a ++ "/" ++ b).toList = a.toList ++ '/' :: b.toList := by simp
  rw [segments, htext, List.splitOn_append_cons_self, List.map_append]
  rfl

theorem parts_append (a b : String) : parts (a ++ "/" ++ b) = parts a ++ parts b := by
  rw [parts, segments_append, List.filter_append]
  rfl

/-- A text without slashes is one segment. -/
theorem segments_of_not_mem {s : String} (h : '/' ∉ s.toList) : segments s = [s] := by
  rw [segments, List.splitOn_eq_singleton h]
  simp

/-- There are no slashes between slashes. -/
theorem not_mem_of_mem_splitOn {s l : List Char} (h : s ∈ l.splitOn '/') : '/' ∉ s := by
  induction l generalizing s with
  | nil =>
    rw [List.splitOn_nil, List.mem_singleton] at h
    rw [h]
    exact List.not_mem_nil
  | cons c rest ih =>
    rw [List.splitOn_cons_eq_if_modifyHead] at h
    split at h
    · rcases List.mem_cons.1 h with rfl | h
      · exact List.not_mem_nil
      · exact ih h
    · next hc =>
      cases hsplit : rest.splitOn '/' with
      | nil => exact absurd hsplit (List.splitOn_ne_nil _ _)
      | cons first others =>
        rw [hsplit, List.modifyHead_cons] at h
        rcases List.mem_cons.1 h with rfl | h
        · have hfirst := ih (hsplit ▸ List.mem_cons_self)
          rintro (_ | ⟨_, hmem⟩)
          · exact hc (by simp)
          · exact hfirst hmem
        · exact ih (hsplit ▸ List.mem_cons_of_mem _ h)

theorem not_mem_of_mem_segments {s path : String} (h : s ∈ segments path) : '/' ∉ s.toList := by
  obtain ⟨l, hl, rfl⟩ := List.mem_map.1 h
  rw [String.toList_ofList]
  exact not_mem_of_mem_splitOn hl

/-! ## Going on from a base -/

/-- A path that is not empty and ends with a slash has something in front of it. -/
theorem exists_of_getLast?_slash {path : String} (h : path.toList.getLast? = some '/') :
    ∃ front, path = front ++ "/" ++ "" := by
  obtain ⟨front, hfront⟩ := List.getLast?_eq_some_iff.1 h
  refine ⟨String.ofList front, String.toList_injective ?_⟩
  simp [hfront]

/-- Where a path goes on from a base. -/
theorem join_cases (base : String) {path : String} (h : isAbsolute path = false) :
    (base = "" ∧ join base path = path) ∨ (∃ front, base = front ++ "/" ++ "" ∧
      join base path = front ++ "/" ++ path) ∨
    (base ≠ "" ∧ join base path = base ++ "/" ++ path) := by
  rw [join, h, if_neg (by simp)]
  by_cases hempty : base = ""
  · subst hempty
    exact .inl ⟨rfl, by simp⟩
  by_cases hslash : base.toList.getLast? = some '/'
  · obtain ⟨front, hfront⟩ := exists_of_getLast?_slash hslash
    refine .inr (.inl ⟨front, hfront, ?_⟩)
    rw [if_pos (by simp [hslash]), hfront]
    simp
  · refine .inr (.inr ⟨hempty, ?_⟩)
    rw [if_neg (by simp [hslash, hempty])]

/-- The parts of a relative path come behind those of its base. -/
theorem parts_join (base : String) {path : String} (h : isAbsolute path = false) :
    parts (join base path) = parts base ++ parts path := by
  rcases join_cases base h with ⟨rfl, hjoin⟩ | ⟨front, rfl, hjoin⟩ | ⟨-, hjoin⟩
  · rw [hjoin]
    rfl
  · rw [hjoin, parts_append, parts_append, List.append_assoc]
    rfl
  · rw [hjoin, parts_append]

/-- Whether a path is absolute is decided by its beginning. -/
theorem isAbsolute_append {a : String} (h : a ≠ "") (b : String) :
    isAbsolute (a ++ b) = isAbsolute a := by
  have hlist : a.toList ≠ [] := by simpa using h
  cases hchars : a.toList with
  | nil => exact absurd hchars hlist
  | cons c rest => simp [isAbsolute, hchars]

/-- A relative path does not change whether its base is absolute. -/
theorem isAbsolute_join (base : String) {path : String} (h : isAbsolute path = false) :
    isAbsolute (join base path) = isAbsolute base := by
  rcases join_cases base h with ⟨rfl, hjoin⟩ | ⟨front, rfl, hjoin⟩ | ⟨hne, hjoin⟩
  · rw [hjoin, h]
    rfl
  · have hfront : front ++ "/" ≠ "" := by simp
    rw [hjoin, isAbsolute_append hfront, isAbsolute_append hfront]
  · rw [hjoin, String.append_assoc, isAbsolute_append hne]

/-- A text without slashes is a path of one part, unless it is empty. -/
theorem parts_of_segment {s : String} (hslash : '/' ∉ s.toList) (hne : s ≠ "") :
    isAbsolute s = false ∧ parts s = [s] := by
  constructor
  · cases hchars : s.toList with
    | nil => simp [isAbsolute, hchars]
    | cons c rest =>
      rw [hchars] at hslash
      have hc : c ≠ '/' := fun h => hslash (h ▸ List.mem_cons_self)
      simp [isAbsolute, hchars, hc]
  · rw [parts, segments_of_not_mem hslash]
    simp [hne]

/-- A name is neither empty nor one of the two with dots. -/
theorem ne_of_isName {s : String} (hname : isName s = true) : s ≠ "" ∧ s ≠ "." ∧ s ≠ ".." := by
  simp only [isName, Bool.and_eq_true, bne_iff_ne] at hname
  exact ⟨hname.1.1, hname.1.2, hname.2⟩

/-- A name is a path of one part. -/
theorem parts_of_isName {s : String} (hslash : '/' ∉ s.toList) (hname : isName s = true) :
    isAbsolute s = false ∧ parts s = [s] :=
  parts_of_segment hslash (ne_of_isName hname).1

/-- Names are added to a base one by one. -/
theorem parts_foldl_join (base : String) {l : List String}
    (hl : ∀ s ∈ l, '/' ∉ s.toList ∧ isName s = true) :
    parts (l.foldl join base) = parts base ++ l ∧
      isAbsolute (l.foldl join base) = isAbsolute base := by
  induction l generalizing base with
  | nil => exact ⟨(List.append_nil _).symm, rfl⟩
  | cons s rest ih =>
    obtain ⟨hslash, hname⟩ := hl s List.mem_cons_self
    obtain ⟨habsolute, hparts⟩ := parts_of_isName hslash hname
    obtain ⟨hrest, habsolute'⟩ := ih (join base s) fun s hs => hl s (List.mem_cons_of_mem _ hs)
    rw [List.foldl_cons, hrest, habsolute', parts_join base habsolute,
      isAbsolute_join base habsolute,
      hparts, List.append_assoc]
    exact ⟨rfl, rfl⟩

/-- All names of a path are names, and have no slash. -/
theorem isName_of_mem_names {s path : String} (h : s ∈ names path) :
    '/' ∉ s.toList ∧ isName s = true :=
  ⟨not_mem_of_mem_segments (List.mem_filter.1 h).1, (List.mem_filter.1 h).2⟩

/-- A path below a base has the names of the other one behind the parts of the base. -/
theorem parts_below (base path : String) : parts (below base path) = parts base ++ names path :=
  (parts_foldl_join base fun _ => isName_of_mem_names).1

/-- What is below a base is absolute if the base is. -/
theorem isAbsolute_below (base path : String) :
    isAbsolute (below base path) = isAbsolute base :=
  (parts_foldl_join base fun _ => isName_of_mem_names).2

/-- Two paths are the same one below a base exactly if they have the same names. -/
theorem below_eq_below_iff {base a b : String} :
    below base a = below base b ↔ names a = names b := by
  constructor
  · intro h
    have hparts := congrArg parts h
    rw [parts_below, parts_below] at hparts
    exact List.append_cancel_left hparts
  · intro h
    rw [below, below, ← names, ← names, h]

/-- A path that ends with a name does not end with a slash. -/
theorem getLast?_below {path : String} (base : String) (h : names path ≠ []) :
    (below base path).toList.getLast? ≠ some '/' := by
  obtain ⟨front, s, hnames⟩ := (List.eq_nil_or_concat' (names path)).resolve_left h
  obtain ⟨hslash, hname⟩ : '/' ∉ s.toList ∧ isName s = true :=
    isName_of_mem_names (hnames ▸ List.mem_append_right front (List.mem_singleton_self s))
  have hbelow : below base path = join (front.foldl join base) s := by
    rw [below, ← names, hnames, List.foldl_append]
    rfl
  have hend : ∃ more, below base path = more ++ s := by
    rw [hbelow]
    rcases join_cases (front.foldl join base) (parts_of_isName hslash hname).1 with
      ⟨-, hjoin⟩ | ⟨more, -, hjoin⟩ | ⟨-, hjoin⟩
    · exact ⟨"", by simpa using hjoin⟩
    · exact ⟨more ++ "/", hjoin⟩
    · exact ⟨_, hjoin⟩
  obtain ⟨more, hmore⟩ := hend
  have hne : s.toList ≠ [] := by
    intro hnil
    obtain rfl : s = "" := String.toList_injective hnil
    simp [isName] at hname
  rw [hmore, String.toList_append, List.getLast?_append_of_ne_nil _ hne]
  exact fun hlast => hslash (List.mem_of_getLast? hlast)

/-! ## Lying below a base -/

/-- A path lies below a base: it has the segments of the base that count, and behind them no step
up. -/
def Under (base path : String) : Prop :=
  isAbsolute path = isAbsolute base ∧
    ∃ more, significant path = significant base ++ more ∧ ".." ∉ more

/-- The parts of a path decide which of its segments count. -/
theorem significant_eq (path : String) : significant path =
    (if isAbsolute path = false ∧ (parts path).head? = some "." then ["."] else []) ++
      (parts path).filter (· != ".") := by
  have hfilter : (segments path).filter (fun s => s != "" && s != ".") =
      (parts path).filter (· != ".") := by
    rw [parts, List.filter_filter]
    exact List.filter_congr fun s _ => Bool.and_comm ..
  -- Dropping empty segments brings another one to the front only behind a slash.
  have hhead : (segments path).head? = some "." ↔
      isAbsolute path = false ∧ (parts path).head? = some "." := by
    cases hchars : path.toList with
    | nil =>
      have hpath : path = "" := String.toList_injective hchars
      subst hpath
      decide
    | cons c rest =>
      by_cases hc : c = '/'
      · simp [segments, isAbsolute, hchars, hc, List.splitOn_cons_eq_if_modifyHead]
      · cases hsplit : rest.splitOn '/' with
        | nil => exact absurd hsplit (List.splitOn_ne_nil _ _)
        | cons first others =>
          have hsegments : segments path =
              String.ofList (c :: first) :: others.map String.ofList := by
            simp [segments, hchars, List.splitOn_cons_eq_if_modifyHead, hc, hsplit]
          simp [parts, hsegments, isAbsolute, hchars, hc]
  rw [significant, hfilter]
  by_cases h : (segments path).head? = some "."
  · rw [if_pos (hhead.1 h), if_pos (by simp [h])]
  · rw [if_neg (fun h' => h (hhead.2 h')), if_neg (by simp [h])]

/-- A path that goes on from a base with names has the segments of the base that count, and behind
them the names. -/
theorem significant_of_parts {base path : String} {more : List String}
    (habsolute : isAbsolute path = isAbsolute base) (hparts : parts path = parts base ++ more)
    (hmore : ∀ s ∈ more, isName s = true) : significant path = significant base ++ more := by
  have hdot : ∀ s ∈ more, s ≠ "." := fun s hs => (ne_of_isName (hmore s hs)).2.1
  have hhead : (parts path).head? = some "." ↔ (parts base).head? = some "." := by
    rw [hparts]
    cases hbase : parts base with
    | nil =>
      cases more with
      | nil => rfl
      | cons s rest => simp [hdot s List.mem_cons_self]
    | cons s rest => rfl
  have hfilter : more.filter (· != ".") = more :=
    List.filter_eq_self.2 fun s hs => by simp [hdot s hs]
  simp only [significant_eq, habsolute, hhead]
  rw [hparts, List.filter_append, hfilter, List.append_assoc]

/-- The segments of the base stay, and the names of the path come behind them. -/
theorem significant_below (base path : String) :
    significant (below base path) = significant base ++ names path :=
  significant_of_parts (isAbsolute_below base path) (parts_below base path) fun _ hs =>
    (isName_of_mem_names hs).2

/-- A path of names lies below the base that it is joined to. -/
theorem under_join (base : String) {path : String} (h : isAbsolute path = false)
    (hnames : ∀ s ∈ parts path, isName s = true) : Under base (join base path) := by
  have habsolute := isAbsolute_join base h
  refine ⟨habsolute, parts path, ?_, fun hup => (ne_of_isName (hnames _ hup)).2.2 rfl⟩
  exact significant_of_parts habsolute (parts_join base h) hnames

end Path

/-! ## Class files -/

namespace ClassName

/-- Behind the last slash of the path of a class file stands at least its ending, and no dot stands
anywhere else. -/
theorem splitOn_append_ending {l : List Char} (hdot : '.' ∉ l) :
    (∀ s ∈ (l ++ fileEnding.toList).splitOn '/', '.' ∉ s ∨ 6 ≤ s.length) ∧
      ∃ s ∈ (l ++ fileEnding.toList).splitOn '/', 6 ≤ s.length := by
  induction l with
  | nil => decide
  | cons c rest ih =>
    rw [List.mem_cons, not_or] at hdot
    obtain ⟨hall, s, hs, hlength⟩ := ih hdot.2
    rw [List.cons_append, List.splitOn_cons_eq_if_modifyHead]
    split
    · refine ⟨fun s hs => ?_, s, List.mem_cons_of_mem _ hs, hlength⟩
      rcases List.mem_cons.1 hs with rfl | hs
      · exact .inl List.not_mem_nil
      · exact hall s hs
    · cases hsplit : (rest ++ fileEnding.toList).splitOn '/' with
      | nil => exact absurd hsplit (List.splitOn_ne_nil _ _)
      | cons first others =>
        rw [hsplit] at hall hs
        rw [List.modifyHead_cons]
        constructor
        · intro s hs
          rcases List.mem_cons.1 hs with rfl | hs
          · rcases hall first List.mem_cons_self with hfirst | hfirst
            · exact .inl (by simp [hdot.1, hfirst])
            · exact .inr (Nat.le_succ_of_le hfirst)
          · exact hall s (List.mem_cons_of_mem _ hs)
        · rcases List.mem_cons.1 hs with rfl | hs
          · exact ⟨_, List.mem_cons_self, Nat.le_succ_of_le hlength⟩
          · exact ⟨s, List.mem_cons_of_mem _ hs, hlength⟩

/-- The file of a class has the segments of its name, the last one with the ending. -/
theorem segments_filePath (name : ClassName) : Path.segments name.filePath =
    ((name.text.toList ++ fileEnding.toList).splitOn '/').map String.ofList := by
  rw [Path.segments, filePath, String.toList_append]

/-- Every part of the path of a class file is a name. -/
theorem isName_of_mem_parts {name : ClassName} {s : String} (h : s ∈ Path.parts name.filePath) :
    Path.isName s = true := by
  obtain ⟨hmem, hne⟩ := List.mem_filter.1 h
  rw [segments_filePath] at hmem
  obtain ⟨l, hl, rfl⟩ := List.mem_map.1 hmem
  have hcases := (splitOn_append_ending name.hasNoDot).1 l hl
  -- A segment with a dot has the whole ending, and so is longer than both steps.
  have hother : ∀ t : String, '.' ∈ t.toList → t.toList.length < 6 → String.ofList l ≠ t := by
    rintro _ hdot hlength rfl
    rw [String.toList_ofList] at hdot hlength
    rcases hcases with h | h
    · exact h hdot
    · omega
  have hdot := hother "." (by decide) (by decide)
  have hdots := hother ".." (by decide) (by decide)
  simp only [Path.isName, Bool.and_eq_true]
  exact ⟨⟨hne, by simpa using hdot⟩, by simpa using hdots⟩

/-- All parts of such a file are names. -/
theorem names_filePath (name : ClassName) :
    Path.names name.filePath = Path.parts name.filePath := by
  refine List.filter_congr fun s hs => ?_
  by_cases hne : s = ""
  · subst hne
    rfl
  · have hpart : s ∈ Path.parts name.filePath := List.mem_filter.2 ⟨hs, by simpa using hne⟩
    rw [isName_of_mem_parts hpart]
    simp [hne]

/-- There is one at least. -/
theorem names_filePath_ne_nil (name : ClassName) : Path.names name.filePath ≠ [] := by
  obtain ⟨l, hl, hlength⟩ := (splitOn_append_ending name.hasNoDot).2
  have hmem : String.ofList l ∈ Path.segments name.filePath := by
    rw [segments_filePath]
    exact List.mem_map_of_mem hl
  have hne : String.ofList l ≠ "" := by
    intro h
    have hnil := congrArg (fun s : String => s.toList.length) h
    simp only [String.toList_ofList] at hnil
    simp at hnil
    simp [hnil] at hlength
  rw [names_filePath]
  exact List.ne_nil_of_mem (List.mem_filter.2 ⟨hmem, by simpa using hne⟩)

end ClassName

end Crosswalk
