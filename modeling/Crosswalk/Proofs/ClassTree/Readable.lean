import Crosswalk.Proofs.ClassTree.Rewriting

/-!
# The class trees that bytes are read as

A class tree that is read brings all of its constants along, and a class tree that does so is read
from the bytes that are written for it. So among the class trees whose lengths fit, those that bytes
are read as are known (`ClassTree.readable_iff`).
-/

namespace Crosswalk.ClassTree

variable {c : ClassTree} {input : Bytes}

/-- Everything about the class has been checked that is checked when bytes are read: the shape of
its parts, and that each name it is made of has its constants. -/
structure Readable (c : ClassTree) : Prop where
  regular : c.Regular
  closed : c.constants.Closed
  room : c.constants.next ≤ PoolBuilder.slotLimit
  needs : ∀ n ∈ c.needs, c.constants.Provides n

theorem readable_of_decode (h : decode input = .ok c) : c.Readable := by
  obtain ⟨f, hfile, htree⟩ := bind_eq_ok_iff.1 h
  have hf := ClassFile.regular_of_ofBytes hfile
  have hlaid := hf.constants.laidOut
  have hread := readFrom_of_ofFile htree
  obtain ⟨hnext, -⟩ := EntryPool.of_ofPool_eq_ok hlaid hread.constants
  refine
    { regular := regular_of_ofFile hf htree
      closed := EntryPool.closed_of_ofPool hlaid hread.constants
      room := ?_
      needs := fun n hn => EntryPool.provides_of_meets hlaid hread.constants (hread.meetsAll n hn) }
  rw [hnext]
  exact Nat.le_of_lt_succ hf.constants.limit

/-- The bytes that are written for the class hold no constant besides its own ones, so that it is
read from them. -/
theorem Readable.exists_input (h : c.Readable) (hfits : c.Fits) :
    ∃ input, decode input = .ok c := by
  obtain ⟨b, file, hseed, hbody, hnext, hfile⟩ := exists_built h.closed
    h.room h.needs
  have hseeded := PoolBuilder.seeded_of_seed hseed
  -- Nothing is added behind the seeded pool, as everything that is asked for is in it.
  obtain ⟨texts, hwrites⟩ := writes_names c
  obtain ⟨-, -, hnames⟩ := hwrites b file b hbody hseeded.coherent
  have hconstants : (file b.constants).constants = b.constants := (hnames b.constants (.refl _)).1
  obtain ⟨hspelled, entries, -, hback⟩ := of_toFile_eq_ok h.regular hfile
  obtain ⟨hregular, htree⟩ := (hback _).2 ⟨hfits.attributes, rfl⟩
  have hentries : EntryPool.ofPool b.constants = .ok entries := by
    rw [← hconstants]
    exact (readFrom_of_ofFile htree).constants
  -- What is read back from a seeded pool are the entries it was seeded with.
  have hsame : entries = c.constants := by
    have hown := hseeded.ofPool_eq h.regular.constants hnext
    exact Except.ok.inj (hentries.symm.trans hown)
  subst hsame
  exact ⟨_, bind_eq_ok_iff.2
    ⟨_, ClassFile.ofBytes_bytes_iff.2 ⟨hregular, hspelled.2 hfits.texts⟩, htree⟩⟩

/-- A class that fits is readable exactly if some bytes are read as it. -/
theorem readable_iff (hfits : c.Fits) : c.Readable ↔ ∃ input, decode input = .ok c := by
  constructor
  · exact fun h => h.exists_input hfits
  · rintro ⟨input, h⟩
    exact readable_of_decode h

end Crosswalk.ClassTree
