/-!
# Buffers

A buffer has a fixed length; writing to it replaces its leading entries.

Results:
* `length_overwrite`: overwriting keeps the length.
* `overwrite_of_length_eq`: writing as many entries as there are replaces them all.
-/
namespace MicStream

/-- A list whose leading entries are replaced, as far as both lists reach. -/
def overwrite {α : Type} (new old : List α) : List α :=
  new.take old.length ++ old.drop new.length

@[simp] theorem length_overwrite {α : Type} (new old : List α) :
    (overwrite new old).length = old.length := by
  simp only [overwrite, List.length_append, List.length_take, List.length_drop]; omega

theorem overwrite_of_length_eq {α : Type} (new old : List α) (h : new.length = old.length) :
    overwrite new old = new := by
  simp [overwrite, ← h]

end MicStream
