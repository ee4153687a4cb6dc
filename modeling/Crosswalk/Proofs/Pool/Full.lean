import Crosswalk.Proofs.Pool.Seeding

/-!
# Pools without room

Entries keep their slots when they are seeded, so a class that fills its pool can only be written
as long as it needs no other text than those it has: the first new one finds no room
(`PoolBuilder.seed_full`).
-/

namespace Crosswalk

/-- The pool of a class that consists of its name and as many numbers as given. -/
def EntryPool.filled (text name : String) (n : Nat) : EntryPool :=
  .ofList (.utf8 text :: .className name :: List.replicate n (.integer 0))

/-- The constants of such a class. -/
def ConstantPool.filled (text : String) (n : Nat) : ConstantPool :=
  .ofList 1 (.utf8 text :: .className 1 :: List.replicate n (.integer 0))

namespace PoolBuilder

/-- Numbers take a slot each, as long as there is room. -/
theorem reserve_integers {l : List (Nat × Entry)} (hl : ∀ item ∈ l, item.2 = .integer 0)
    (b : PoolBuilder) (h : b.constants.next + l.length ≤ slotLimit) :
    ∃ constants : ConstantPool, constants.next = b.constants.next + l.length ∧
      (l.forM fun item => reserve item.1 item.2) b = .ok ((), { b with constants }) := by
  induction l generalizing b with
  | nil => exact ⟨b.constants, rfl, rfl⟩
  | cons item l ih =>
    rw [List.length_cons] at h ⊢
    have hroom : b.constants.next + 1 ≤ slotLimit := by omega
    have hpush : reserve item.1 item.2 b =
        .ok ((), { b with constants := b.constants.push (.integer 0) }) := by
      rw [hl item List.mem_cons_self]
      simp [reserve, push, holding, Constant.width, bind, Except.bind, pure, Except.pure, hroom]
    obtain ⟨constants, hnext, hrun⟩ :=
      ih (fun other hother => hl other (List.mem_cons_of_mem _ hother))
      { b with constants := b.constants.push (.integer 0) } (by
        show b.constants.next + 1 + l.length ≤ _
        omega)
    refine ⟨constants, ?_, ?_⟩
    · rw [hnext]
      show b.constants.next + 1 + l.length = _
      omega
    · rw [List.forM_eq_forM, List.forM_cons]
      exact (bind_of_ok hpush).trans hrun

/-- Once all slots are taken, the text of a new name has none. -/
theorem seed_full {entries : EntryPool} {text name : String} {n j : Nat} {l : List (Nat × Entry)}
    (hne : text ≠ name) (hlist : entries.toList = (1, .utf8 text) :: (j, .className name) :: l)
    (hl : l.map Prod.snd = List.replicate n (.integer 0)) (hn : 3 + n = slotLimit) :
    seed entries .empty = .error ⟨.utf8 name, slotLimit⟩ := by
  have hlength : l.length = n := by simpa using congrArg List.length hl
  obtain ⟨constants, hnext, hrun⟩ := reserve_integers (l := l)
    (fun item hitem => List.eq_of_mem_replicate (hl ▸ List.mem_map_of_mem hitem))
    ⟨Slots.ofList 1 [.utf8 text, .integer 0], (∅ : Std.HashMap String Index).insertIfNew text 1,
      ∅, ∅⟩ (by rw [hlength]; exact Nat.le_of_eq hn)
  rw [hlength] at hnext
  have hreserve : (entries.toList.forM fun item => reserve item.1 item.2) .empty =
      .ok ((), ⟨constants, (∅ : Std.HashMap String Index).insertIfNew text 1, ∅, ∅⟩) := by
    rw [hlist]
    exact hrun
  have htext : PoolBuilder.text name
      ⟨constants, (∅ : Std.HashMap String Index).insertIfNew text 1, ∅, ∅⟩ =
        .error ⟨.utf8 name, slotLimit⟩ := by
    have hlast : constants.next = slotLimit := hnext.trans hn
    have hroom : ¬ slotLimit + 1 ≤ slotLimit := by omega
    simp [PoolBuilder.text, hne, push, hlast, hroom, Constant.width, bind, Except.bind]
  -- The first text that is asked for behind the old ones is that of the class.
  refine (bind_of_ok hreserve).trans (bind_of_error ?_)
  rw [hlist, List.forM_eq_forM, List.forM_cons, List.forM_cons]
  refine (bind_of_ok (a := ()) rfl).trans (bind_of_error ?_)
  exact bind_of_error htext

end PoolBuilder

/-! ## Reading such a pool -/

/-- The entries are a text, the class of that name, and numbers. -/
theorem EntryPool.toList_filled (text name : String) (n : Nat) : ∃ l,
    (filled text name n).toList = (1, .utf8 text) :: (2, .className name) :: l ∧
      l.map Prod.snd = List.replicate n (.integer 0) := by
  obtain ⟨l, hlist, hitems, -⟩ := Slots.foldl_push_eq
    (((Slots.startingAt 1).push (.utf8 text)).push (.className name) : Slots Entry)
    (List.replicate n (.integer 0))
  exact ⟨l, hlist, hitems⟩

/-- The entries of a pool that is filled up with integers, each of which takes one slot. -/
theorem EntryPool.map_snd_filled (text name : String) (n : Nat) :
    (filled text name n).toList.map Prod.snd =
      .utf8 text :: .className name :: List.replicate n (.integer 0) := by
  obtain ⟨l, hlist, hl⟩ := toList_filled text name n
  rw [hlist, List.map_cons, List.map_cons, hl]

/-- They take two slots more than there are numbers. -/
theorem EntryPool.taken_filled (text name : String) (n : Nat) :
    (filled text name n).taken = n + 2 := by
  have hwidths : (filled text name n).taken =
      (((filled text name n).toList.map Prod.snd).map Wide.width).sum := by
    rw [List.map_map]
    rfl
  rw [hwidths, map_snd_filled, List.map_cons, List.map_cons, List.map_replicate, List.sum_cons,
    List.sum_cons, List.sum_replicate]
  show 1 + (1 + n * 1) = n + 2
  omega

/-- There is nothing else. -/
theorem EntryPool.mem_filled {text name : String} {n : Nat} {item : Nat × Entry}
    (h : item ∈ (filled text name n).toList) :
    item.2 = .utf8 text ∨ item.2 = .className name ∨ item.2 = .integer 0 := by
  have hmem := List.mem_map_of_mem (f := Prod.snd) h
  rw [map_snd_filled, List.mem_cons, List.mem_cons] at hmem
  exact hmem.imp_right (.imp_right List.eq_of_mem_replicate)

namespace ConstantPool

variable (text : String) (n : Nat)

/-- The constants of the file are just those. -/
theorem toList_filled : ∃ l,
    (filled text n).toList = (1, .utf8 text) :: (2, .className 1) :: l ∧
      l.map Prod.snd = List.replicate n (.integer 0) ∧ (filled text n).next = 3 + n := by
  obtain ⟨l, hlist, hitems, hnext⟩ := Slots.foldl_push_eq
    (((Slots.startingAt 1).push (.utf8 text)).push (.className 1) : ConstantPool)
    (List.replicate n (.integer 0))
  refine ⟨l, hlist, hitems, hnext.trans ?_⟩
  show 3 + _ = _
  simp [Wide.width, Constant.width]

/-- They are laid out from the first slot on. -/
theorem laidOut_filled : (filled text n).LaidOut 1 :=
  Slots.laidOut_ofList 1 _

/-- There is nothing else in the file either. -/
theorem mem_filled {item : Nat × Constant} (h : item ∈ (filled text n).toList) :
    item.2 = .utf8 text ∨ item.2 = .className 1 ∨ item.2 = .integer 0 := by
  obtain ⟨l, hlist, hitems, -⟩ := toList_filled text n
  rw [hlist, List.mem_cons, List.mem_cons] at h
  rcases h with rfl | rfl | h
  · exact .inl rfl
  · exact .inr (.inl rfl)
  · have hmem := List.mem_map_of_mem (f := Prod.snd) h
    rw [hitems] at hmem
    exact .inr (.inr (List.eq_of_mem_replicate hmem))

/-- The first slot has the text. -/
theorem utf8_filled : (filled text n).utf8 1 = .ok text := by
  obtain ⟨l, hlist, -, -⟩ := toList_filled text n
  rw [utf8_eq_ok_iff, Slots.find?_eq_some_iff (laidOut_filled text n)]
  show (1, _) ∈ (filled text n).toList
  rw [hlist]
  exact List.mem_cons_self

/-- The second one has the class. -/
theorem className_filled : (filled text n).className 2 = .ok text := by
  obtain ⟨l, hlist, -, -⟩ := toList_filled text n
  have hfind : (filled text n).constant 2 = .ok (.className 1) := by
    rw [constant_eq_ok_iff, Slots.find?_eq_some_iff (laidOut_filled text n)]
    show (2, _) ∈ (filled text n).toList
    rw [hlist]
    exact List.mem_cons_of_mem _ List.mem_cons_self
  rw [className, hfind]
  exact utf8_filled text n

end ConstantPool

/-- The constants are read as the entries they were meant to be. -/
theorem EntryPool.ofPool_filled (text : String) (n : Nat) :
    ofPool (.filled text n) = .ok (filled text text n) := by
  obtain ⟨l, hlist, hitems, -⟩ := ConstantPool.toList_filled text n
  have hread : (ConstantPool.filled text n).toList.mapM
      (fun item => Entry.ofConstant (.filled text n) item.2) =
        .ok (.utf8 text :: .className text :: List.replicate n (.integer 0)) := by
    rw [mapM_eq_ok_iff, hlist]
    refine .cons rfl (.cons ?_ ?_)
    · exact (Entry.Leads.className (ConstantPool.utf8_filled text n)).ofConstant_eq
    have hrest : List.Forall₂ (fun constant entry =>
        Entry.ofConstant (.filled text n) constant = .ok entry)
          (l.map Prod.snd) (List.replicate n (.integer 0)) := by
      rw [hitems, List.forall₂_iff_get]
      refine ⟨by simp, fun i _ _ => ?_⟩
      simp only [List.get_eq_getElem, List.getElem_replicate]
      rfl
    exact List.forall₂_map_left_iff.1 hrest
  exact map_eq_ok_iff.2 ⟨_, hread, rfl⟩

end Crosswalk
