import Crosswalk.Files.Fault
import Crosswalk.Mappings.Basic
import Crosswalk.Text.Lines
import Crosswalk.Text.Quoted

/-!
# Reading mappings

Mappings are written line by line, with tabs between the columns. The first line names the
namespaces. A line for a class starts with `c`, and the lines for its members follow, with a tab in
front of an `f` or an `m`. A name may be left empty where it is the same as in the first namespace.
All other lines are skipped.
-/

namespace Crosswalk

/-- What is wrong with a line. -/
inductive MappingProblem
  | emptyFile
  | badHeader
  | classWithoutNames
  | memberOutsideClass
  | memberWithoutDescriptor
  | memberWithoutNames
  deriving DecidableEq, Repr

/-- The wording of a problem. -/
def MappingProblem.message : MappingProblem → String
  | emptyFile => "empty mapping file"
  | badHeader => "expected a `tiny\\t2\\t<minor>\\t<namespaces>` header"
  | classWithoutNames => "class is missing names"
  | memberOutsideClass => "member outside of a class"
  | memberWithoutDescriptor => "member is missing a descriptor"
  | memberWithoutNames => "member is missing names"

/-- Why mappings cannot be used. -/
inductive MappingFault
  | unreadable (fault : FileFault)
  | malformed (line : Nat) (problem : MappingProblem)
  | unknownNamespace (name : String)
  deriving DecidableEq, Repr

/-- The wording of a fault. -/
def MappingFault.message : MappingFault → String
  | unreadable fault => s!"cannot read mappings: {fault.message}"
  | malformed line problem => s!"mappings line {line}: {problem.message}"
  | unknownNamespace name => s!"unknown mapping namespace {Quoted.text name}"

namespace Mappings

/-- One name for each of `count` namespaces. A name that is missing or empty is that of the first
namespace, which has to be there. -/
def names? (count : Nat) (columns : List String) : Option (List String) :=
  match columns with
  | [] => none
  | first :: _ =>
    if first.isEmpty then none
    else
      some ((List.range count).map fun i =>
        match columns[i]? with
        | some name => if name.isEmpty then first else name
        | none => first)

/-- The namespaces from the first line. -/
def header? (line : String) : Option (List String) :=
  match Lines.columns line with
  | "tiny" :: "2" :: _ :: first :: rest => some (first :: rest)
  | _ => none

/-- A member from the columns behind its kind. -/
def member (count : Nat) : List String → Except MappingProblem MemberMapping
  | [] => .error .memberWithoutDescriptor
  | descriptor :: columns =>
    match names? count columns with
    | some names => .ok ⟨descriptor, names⟩
    | none => .error .memberWithoutNames

/-- The classes that are read so far, the last one first. -/
abbrev Listing := List ClassMapping

/-- Takes over the line of a class. -/
def readClass (count : Nat) (listing : Listing) (columns : List String) :
    Except MappingProblem Listing :=
  match names? count columns with
  | some names => .ok (⟨names, [], []⟩ :: listing)
  | none => .error .classWithoutNames

/-- Takes over the line of a member, which belongs to the class before it. -/
def readMember (count : Nat) (add : ClassMapping → MemberMapping → ClassMapping)
    (listing : Listing) (columns : List String) : Except MappingProblem Listing :=
  match listing with
  | [] => .error .memberOutsideClass
  | c :: before => do
    let m ← member count columns
    pure (add c m :: before)

/-- Adds a field behind those of a class. -/
def addField (c : ClassMapping) (m : MemberMapping) : ClassMapping :=
  { c with fields := c.fields ++ [m] }

/-- Adds a method behind those of a class. -/
def addMethod (c : ClassMapping) (m : MemberMapping) : ClassMapping :=
  { c with methods := c.methods ++ [m] }

/-- Takes over a line. -/
def readLine (count : Nat) (listing : Listing) (line : String) : Except MappingProblem Listing :=
  match Lines.columns line with
  | "c" :: columns => readClass count listing columns
  | "" :: "f" :: columns => readMember count addField listing columns
  | "" :: "m" :: columns => readMember count addMethod listing columns
  | _ => .ok listing

/-- Takes over the lines from the one with the given number on. -/
def readLines (count : Nat) (listing : Listing) (number : Nat) :
    List String → Except MappingFault Listing
  | [] => .ok listing
  | line :: rest =>
    match readLine count listing line with
    | .ok listing => readLines count listing (number + 1) rest
    | .error problem => .error (.malformed number problem)

/-! ## One name for each namespace -/

section Complete

variable {count : Nat} {columns names : List String} {listing listing' : Listing}

/-- Where the names of a line are accepted, there is one for each namespace. -/
theorem length_of_names? (h : names? count columns = some names) : names.length = count := by
  rw [names?.eq_def] at h
  split at h
  · cases h
  · split at h
    · cases h
    · cases h
      rw [List.length_map, List.length_range]

/-- The same holds of the names of a member. -/
theorem length_of_member {m : MemberMapping} (h : member count columns = .ok m) :
    m.names.length = count := by
  rw [member.eq_def] at h
  split at h
  · cases h
  · split at h
    · next hnames =>
      cases h
      exact length_of_names? hnames
    · cases h

/-- A line for a class adds one name for each namespace. -/
theorem complete_of_readClass (hlisting : ∀ c ∈ listing, c.Complete count)
    (h : readClass count listing columns = .ok listing') : ∀ c ∈ listing', c.Complete count := by
  rw [readClass] at h
  split at h
  · next hnames =>
    cases h
    exact List.forall_mem_cons.2 ⟨⟨length_of_names? hnames, by simp, by simp⟩, hlisting⟩
  · cases h

/-- A line for a member changes the class in front of it as the member demands. -/
theorem complete_of_readMember {add : ClassMapping → MemberMapping → ClassMapping}
    (hadd : ∀ c m, c.Complete count → m.names.length = count → (add c m).Complete count)
    (hlisting : ∀ c ∈ listing, c.Complete count)
    (h : readMember count add listing columns = .ok listing') :
    ∀ c ∈ listing', c.Complete count := by
  rw [readMember.eq_def] at h
  split at h
  · cases h
  · next c before =>
    rw [List.forall_mem_cons] at hlisting
    cases hmember : member count columns with
    | error problem => simp [hmember, bind, Except.bind] at h
    | ok m =>
      rw [hmember] at h
      cases h
      exact List.forall_mem_cons.2
        ⟨hadd c m hlisting.1 (length_of_member hmember), hlisting.2⟩

/-- A class stays complete with another field. -/
theorem complete_addField {c : ClassMapping} {m : MemberMapping} (hc : c.Complete count)
    (hm : m.names.length = count) : (addField c m).Complete count :=
  ⟨hc.names, by simpa [addField, or_imp, forall_and, hm] using hc.fields, hc.methods⟩

/-- A class stays complete with another method. -/
theorem complete_addMethod {c : ClassMapping} {m : MemberMapping} (hc : c.Complete count)
    (hm : m.names.length = count) : (addMethod c m).Complete count :=
  ⟨hc.names, hc.fields, by simpa [addMethod, or_imp, forall_and, hm] using hc.methods⟩

/-- A line is taken over with one name for each namespace. -/
theorem complete_of_readLine {line : String} (hlisting : ∀ c ∈ listing, c.Complete count)
    (h : readLine count listing line = .ok listing') : ∀ c ∈ listing', c.Complete count := by
  rw [readLine] at h
  split at h
  · exact complete_of_readClass hlisting h
  · exact complete_of_readMember (fun _ _ => complete_addField) hlisting h
  · exact complete_of_readMember (fun _ _ => complete_addMethod) hlisting h
  · cases h
    exact hlisting

/-- So all classes are complete once all lines have been read. -/
theorem complete_of_readLines {number : Nat} {lines : List String}
    (hlisting : ∀ c ∈ listing, c.Complete count)
    (h : readLines count listing number lines = .ok listing') :
    ∀ c ∈ listing', c.Complete count := by
  induction lines generalizing listing number with
  | nil =>
    cases h
    exact hlisting
  | cons line rest ih =>
    rw [readLines] at h
    split at h
    · next hline => exact ih (complete_of_readLine hlisting hline) h
    · cases h

end Complete

/-- Reads mappings. -/
def ofText (text : String) : Except MappingFault Mappings :=
  match Lines.ofText text with
  | [] => .error (.malformed 1 .emptyFile)
  | first :: rest =>
    match header? first with
    | none => .error (.malformed 1 .badHeader)
    | some namespaces =>
      match h : readLines namespaces.length [] 2 rest with
      | .error fault => .error fault
      | .ok listing =>
        .ok ⟨namespaces, listing.reverse, fun c hc =>
          complete_of_readLines (by simp) h c (List.mem_reverse.1 hc)⟩

/-- Reads mappings from the contents of a file. -/
def ofBytes (contents : Bytes) : Except MappingFault Mappings :=
  match String.fromUTF8? ⟨contents.toArray⟩ with
  | some text => ofText text
  | none => .error (.unreadable .notText)

end Mappings

end Crosswalk
