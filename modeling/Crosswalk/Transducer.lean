/-!
# Transducers

A transducer reads its input item by item and emits outputs on the way and at the end. `emitted` is
all that it emits from a state on; `emitted_cons` unfolds it one item at a time.
-/

namespace Crosswalk

/-- A machine with states `σ` that reads `α` and emits `β`. -/
structure Transducer (σ α β : Type) where
  step : σ → α → σ × List β
  finish : σ → List β

namespace Transducer

variable {σ α β : Type}

/-- What is emitted from a state on, behind what has been emitted before. -/
def emittedAfter (t : Transducer σ α β) (done : Array β) (s : σ) : List α → Array β
  | [] => done ++ t.finish s
  | a :: rest =>
    let (next, emitted) := t.step s a
    t.emittedAfter (done ++ emitted) next rest

/-- What is emitted from a state on. -/
def emitted (t : Transducer σ α β) (s : σ) (input : List α) : List β :=
  (t.emittedAfter #[] s input).toList

/-- What has been emitted before stands in front. -/
theorem toList_emittedAfter (t : Transducer σ α β) (done : Array β) (s : σ) (input : List α) :
    (t.emittedAfter done s input).toList = done.toList ++ t.emitted s input := by
  unfold emitted
  induction input generalizing done s with
  | nil => simp [emittedAfter]
  | cons a rest ih =>
    simp only [emittedAfter]
    rw [ih, ih (#[] ++ _)]
    simp

@[simp] theorem emitted_nil (t : Transducer σ α β) (s : σ) : t.emitted s [] = t.finish s := by
  simp [emitted, emittedAfter]

/-- The first item is answered first. -/
@[simp] theorem emitted_cons (t : Transducer σ α β) (s : σ) (a : α) (rest : List α) :
    t.emitted s (a :: rest) = (t.step s a).2 ++ t.emitted (t.step s a).1 rest := by
  rw [emitted, emittedAfter, toList_emittedAfter]
  simp

end Transducer

end Crosswalk
