import Crosswalk.Proofs.Location.Collapsing
import Crosswalk.Source.Archive

/-!
# Collapsing what was escaped twice

In a text that has been escaped, two digits follow every percent sign. So what was escaped twice is
collapsed to what was escaped once, whatever stands behind it (`Location.collapse_escape_append`).
The location of an entry of an archive has the location of the archive in it, which is escaped
twice, and the name of the entry, which is escaped once. It is collapsed to what both are when they
are escaped once, unless the name has a percent sign that two digits follow
(`Location.collapse_locate_iff`).
-/

namespace Crosswalk.Location

/-! ## Escaped texts -/

/-- What stands for itself does so once more, and is no percent sign. -/
theorem escapeChar_ofNat {b : UInt8} (h : isPlain b = true) :
    escapeChar (Char.ofNat b.toNat) = [Char.ofNat b.toNat] ∧ Char.ofNat b.toNat ≠ '%' := by
  obtain ⟨hlt, hpercent⟩ := bounds_of_isPlain h
  constructor
  · rw [escapeChar, utf8EncodeChar_ofNat hlt, List.flatMap_singleton, escapeByte, if_pos h]
  · intro heq
    have hbytes := utf8EncodeChar_ofNat hlt
    rw [heq] at hbytes
    have hb : [(37 : UInt8)] = [b] := (show String.utf8EncodeChar '%' = [37] by decide) ▸ hbytes
    exact hpercent (List.singleton_inj.1 hb).symm

/-- What stands for a byte looks the same when it is escaped once more and collapsed. -/
theorem escapeLone_escapeByte (b : UInt8) (rest : List Char) :
    escapeLone (escapeByte b ++ rest) = escapeByte b ++ escapeLone rest := by
  unfold escapeByte
  by_cases hplain : isPlain b = true
  · obtain ⟨hself, hpercent⟩ := escapeChar_ofNat hplain
    rw [if_pos hplain, List.singleton_append, escapeLone, if_neg fun h => hpercent h.1, hself]
  · have hlt := b.toNat_lt
    have hhigh := Hex.digit?_upperDigit (b.toNat / 16) (by omega)
    have hlow := Hex.digit?_upperDigit (b.toNat % 16) (by omega)
    rw [if_neg hplain, Hex.upperByte]
    -- The percent sign of an escape always has its two digits behind it.
    show escapeLone ('%' :: Hex.upperDigit _ :: Hex.upperDigit _ :: rest) = _
    rw [escapeLone, if_pos ⟨rfl, startsWithByte_of_digits hhigh hlow rest⟩, escapeLone_digit hhigh,
      escapeLone_digit hlow]
    rfl

/-- An escaped text looks the same when it is escaped once more and collapsed, and so does what
stands behind it. -/
theorem escapeLone_escape_append (text : String) (rest : List Char) :
    escapeLone ((escape text).toList ++ rest) = (escape text).toList ++ escapeLone rest := by
  rw [escape, String.toList_ofList]
  generalize text.toUTF8.toList = bytes
  induction bytes with
  | nil => rfl
  | cons b bytes ih =>
    rw [List.flatMap_cons, List.append_assoc, escapeLone_escapeByte, ih, List.append_assoc]

theorem escape_append (a b : String) : escape (a ++ b) = escape a ++ escape b := by
  apply String.toList_injective
  rw [String.toList_append, toList_escape, toList_escape, toList_escape, String.toList_append,
    List.flatMap_append]

/-- What was escaped twice is collapsed to what was escaped once. -/
theorem collapse_escape_append (text rest : String) : collapse ⟨escape (escape text ++ rest)⟩ =
    ⟨escape text ++ String.ofList (escapeLone rest.toList)⟩ := by
  rw [collapse, toList_escape, collapseChars_escape, String.toList_append, escapeLone_escape_append,
    String.ofList_append, String.ofList_toList]

/-! ## Percent signs that two digits follow -/

/-- Without such a percent sign collapsing leaves an escaped text as it is, and with one it makes
the text shorter. -/
theorem escapeLone_cases (cs : List Char) :
    (¬HoldsEscape cs ∧ escapeLone cs = cs.flatMap escapeChar) ∨
      (HoldsEscape cs ∧ (escapeLone cs).length < (cs.flatMap escapeChar).length) := by
  induction cs with
  | nil => exact .inl ⟨not_holdsEscape_nil, rfl⟩
  | cons c cs ih =>
    rw [holdsEscape_cons_iff, escapeLone, List.flatMap_cons]
    by_cases hc : c = '%' ∧ startsWithByte cs = true
    · -- The two characters `25` are gone here, and the rest has not become longer.
      right
      have hle : (escapeLone cs).length ≤ (cs.flatMap escapeChar).length := by
        rcases ih with ⟨-, hsame⟩ | ⟨-, hless⟩
        · exact Nat.le_of_eq (congrArg List.length hsame)
        · omega
      refine ⟨.inl hc, ?_⟩
      rw [if_pos hc, hc.1, escapeChar_percent]
      simp only [List.length_append, List.length_cons, List.length_nil]
      omega
    · rw [if_neg hc]
      rcases ih with ⟨hnone, hsame⟩ | ⟨hholds, hless⟩
      · exact .inl ⟨not_or.2 ⟨hc, hnone⟩, by rw [hsame]⟩
      · right
        refine ⟨.inr hholds, ?_⟩
        rw [List.length_append, List.length_append]
        omega

theorem ofList_escapeLone_eq_iff (text : String) :
    String.ofList (escapeLone text.toList) = escape text ↔ ¬HoldsEscape text.toList := by
  rw [← String.toList_inj, String.toList_ofList, toList_escape]
  rcases escapeLone_cases text.toList with ⟨hnone, hsame⟩ | ⟨hholds, hless⟩
  · exact ⟨fun _ => hnone, fun _ => hsame⟩
  · constructor
    · intro heq
      rw [heq] at hless
      exact absurd hless (Nat.lt_irrefl _)
    · intro hnone
      exact absurd hholds hnone

/-! ## Entries of archives -/

/-- What stands around the parts of a location is plain. -/
theorem escape_marks :
    escape "jar:" = "jar:" ∧ escape fileScheme = fileScheme ∧ escape "!/" = "!/" := by
  simp only [← String.toList_inj, toList_escape]
  decide

/-- Up to the name of the entry, the location of an entry was escaped once before. -/
theorem locate_front (workingDirectory path : String) :
    "jar:" ++ (ofPath workingDirectory path).uri ++ "!/" =
      escape ("jar:" ++ fileScheme ++ rooted (Path.join workingDirectory path) ++ "!/") := by
  obtain ⟨hjar, hfile, hentry⟩ := escape_marks
  rw [escape_append, escape_append, escape_append, hjar, hfile, hentry, ofPath]
  simp only [String.append_assoc]

/-- The location of an entry is escaped as a whole. -/
theorem locate_eq (s : ArchiveSource) (entry : String) : s.locate entry =
    ⟨escape ("jar:" ++ (ofPath "" (FileSystem.absolutePath s.place)).uri ++ "!/" ++ entry)⟩ := by
  obtain ⟨hjar, -, hentry⟩ := escape_marks
  rw [escape_append, escape_append, escape_append, hjar, hentry]
  rfl

/-- What was escaped twice is collapsed to what was escaped once, for every text. The location of an
entry of an archive is collapsed to the location of the archive and the name of the entry, each of
them escaped once, exactly if the name has no percent sign that two digits follow. -/
theorem collapse_locate_iff :
    (∀ text, collapse ⟨escape (escape text)⟩ = ⟨escape text⟩) ∧
      ∀ (s : ArchiveSource) (entry : String), (s.locate entry).collapse =
          ⟨"jar:" ++ (ofPath "" (FileSystem.absolutePath s.place)).uri ++ "!/" ++ escape entry⟩ ↔
        ¬HoldsEscape entry.toList := by
  constructor
  · intro text
    have hcollapse := collapse_escape_append text ""
    rwa [String.append_empty, show escapeLone "".toList = [] from rfl, String.ofList_nil,
      String.append_empty] at hcollapse
  · intro s entry
    rw [locate_eq, locate_front, collapse_escape_append, Location.mk.injEq, String.append_right_inj]
    exact ofList_escapeLone_eq_iff entry

end Crosswalk.Location
