import Crosswalk.Proofs.ClassTree.Bare
import Crosswalk.Proofs.Renaming.Shape

/-!
# Classes with new names read back

The bytes of a class that has been read and got its new names and its patches give the class back
exactly if its texts and its attributes have room in the fields that announce their lengths. Nothing
checks that they have: the length of a longer text wraps around, and what is behind it is read as
something else.
-/

namespace Crosswalk.ClassTree

/-! ## What has to find room -/

/-- Patches add no texts. -/
theorem texts_widen (s : Settings) (c : ClassTree) : (c.widen s).texts = c.texts := by
  obtain ⟨methods, hwiden, hmethods⟩ := c.widen_eq s
  have htexts : methods.flatMap MethodTree.texts = c.methods.flatMap MethodTree.texts := by
    rw [List.flatMap_def, List.flatMap_def]
    congr 1
    refine (map_eq_map_of_forall₂ (hmethods.imp fun m m' h => ?_)).symm
    obtain ⟨access, rfl⟩ := h
    rfl
  rw [hwiden, texts, bodyTexts, texts, bodyTexts, htexts]

/-- Patches change no attribute. -/
theorem attributesFit_widen (s : Settings) (c : ClassTree) :
    (c.widen s).AttributesFit ↔ c.AttributesFit := by
  obtain ⟨methods, hwiden, hmethods⟩ := c.widen_eq s
  rw [hwiden]
  constructor
  · rintro ⟨hf, hm, hc⟩
    refine ⟨hf, fun m hmem => ?_, hc⟩
    obtain ⟨m', hmem', access, rfl⟩ := exists_of_forall₂_left hmethods hmem
    have hfits := hm _ hmem'
    exact hfits
  · rintro ⟨hf, hm, hc⟩
    refine ⟨hf, fun m' hmem' => ?_, hc⟩
    obtain ⟨m, hmem, access, rfl⟩ := exists_of_forall₂_right hmethods hmem'
    have hfits := hm _ hmem
    exact hfits

/-- New names need room for themselves only: the attributes of the class as it was decide about all
other lengths. -/
theorem fits_renamed_iff {c : ClassTree} {r : Renaming} {s : Settings} :
    ((c.rename r).widen s).Fits ↔
      (∀ text ∈ (c.rename r).texts, Modified.Fits text) ∧ c.AttributesFit := by
  rw [← attributesFit_rename (r := r), ← attributesFit_widen s, ← texts_widen s]
  exact ⟨fun h => ⟨h.texts, h.attributes⟩, fun h => ⟨h.1, h.2⟩⟩

/-! ## Reading back -/

/-- A class that has been read and is written with its new names and its patches is given back by
its bytes, with more constants behind the old ones, exactly if every text and every list in it has
room in the field that announces its length. -/
theorem renamed_reads_back_iff {input out : Bytes} {c : ClassTree} {r : Renaming} {s : Settings}
    (h : decode input = .ok c) (hout : encode ((c.rename r).widen s) = .ok out) :
    (∃ f m, ((c.rename r).widen s).toFile = .ok f ∧ ClassFile.ofBytes out = .ok f ∧
      decode out = .ok m ∧ m.Extends ((c.rename r).widen s)) ↔
    (∀ text ∈ (c.rename r).texts, Modified.Fits text) ∧ c.AttributesFit := by
  rw [← fits_renamed_iff]
  exact reads_back_iff (((regular_of_decode h).rename r).widen s) hout

/-- The class is written under any new names. -/
theorem encode_renamed_smallest {name superName : String} (s : Settings)
    (h : ["A", "B", name, superName].Nodup) :
    encode (((smallest "A" "B").rename (renameBoth name superName)).widen s) =
      .ok (ClassFile.bare 2 4 (smallestPool name superName)).bytes := by
  rw [rename_smallest, smallest, widen_bare]
  exact encode_smallest h

/-- A class and its super class with new names of one letter are read back. -/
theorem renamed_reads_back_short :
    decode smallestBytes = .ok (smallest "A" "B") ∧
      encode (((smallest "A" "B").rename (renameBoth "X" "Y")).widen (.standard "")) =
        .ok (ClassFile.bare 2 4 (smallestPool "X" "Y")).bytes ∧
      ((∃ f m, (((smallest "A" "B").rename (renameBoth "X" "Y")).widen (.standard "")).toFile =
          .ok f ∧ ClassFile.ofBytes (ClassFile.bare 2 4 (smallestPool "X" "Y")).bytes = .ok f ∧
          decode (ClassFile.bare 2 4 (smallestPool "X" "Y")).bytes = .ok m ∧
          m.Extends (((smallest "A" "B").rename (renameBoth "X" "Y")).widen (.standard ""))) ↔
        (∀ text ∈ ((smallest "A" "B").rename (renameBoth "X" "Y")).texts, Modified.Fits text) ∧
          (smallest "A" "B").AttributesFit) :=
  have hout := encode_renamed_smallest (.standard "") (by decide)
  ⟨decode_smallest, hout, renamed_reads_back_iff decode_smallest hout⟩

/-! ## A text without room -/

/-- A name of one letter, again and again. -/
def repeated (n : Nat) : String :=
  String.ofList (List.replicate n 'a')

/-- Every letter takes a byte. -/
theorem encode_repeated (n : Nat) : Modified.encode (repeated n) = List.replicate n 97 := by
  have hchar : Utf16.unitsOfChar 'a' = [97] := by decide
  have hunit : Modified.encodeUnit 97 = [97] := by decide
  rw [Modified.encode, Utf16.units, repeated, String.toList_ofList]
  induction n with
  | zero => rfl
  | succ n ih =>
    rw [List.replicate_succ, List.flatMap_cons, hchar, List.flatMap_append, ih, List.flatMap_cons,
      hunit]
    rfl

/-- A longer name is none of the others. -/
theorem nodup_repeated {n : Nat} (h : 1 < n) : ["A", "B", repeated n, "C"].Nodup := by
  have hne : ∀ s : String, s.toList.length = 1 → s ≠ repeated n := by
    intro s hs hsame
    rw [hsame, repeated, String.toList_ofList, List.length_replicate] at hs
    omega
  have hA := hne "A" (by decide)
  have hB := hne "B" (by decide)
  have hC := (hne "C" (by decide)).symm
  simp [hA, hB, hC]

/-- The length of a text of 65536 bytes is written as 0, so its first letter is taken for the tag of
the next constant. The class cannot be read any more. -/
theorem renamed_not_read_back_long :
    decode smallestBytes = .ok (smallest "A" "B") ∧
      ∃ out, encode (((smallest "A" "B").rename (renameBoth (repeated 65536) "C")).widen
      (.standard "")) =
        .ok out ∧ ¬ ∃ m, decode out = .ok m ∧
          m.Extends
          (((smallest "A" "B").rename (renameBoth (repeated 65536) "C")).widen (.standard "")) := by
  refine ⟨decode_smallest, _,
    encode_renamed_smallest (.standard "") (nodup_repeated (by decide)), ?_⟩
  rintro ⟨m, hm, -⟩
  obtain ⟨more, hbytes⟩ := bytes_smallest (repeated 65536) "C"
  have hlong :
      (Constant.utf8 (repeated 65536)).bytes = [1, 0, 0, 97] ++ List.replicate 65535 97 := by
    show 1 :: (Bytes.count (Modified.encode (repeated 65536)).length ++
      Modified.encode (repeated 65536)) = _
    rw [encode_repeated, List.length_replicate]
    rfl
  have herror : ∀ tail : Bytes, decode ([0xCA, 0xFE, 0xBA, 0xBE, 0, 0, 0, 52, 0, 7, 1, 0, 1, 65,
      7, 0, 5, 1, 0, 1, 66, 7, 0, 6] ++ ([1, 0, 0, 97] ++ tail)) =
        .error (.invalidConstantTag 97) := by
    intro tail
    cbv
  rw [hbytes, hlong, List.append_assoc, herror] at hm
  cases hm

end Crosswalk.ClassTree
