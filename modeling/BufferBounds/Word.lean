/-!
# Words

Program integers are 64-bit words. Arithmetic on them is done in the integers first, and `word?`
then says whether the result is a word at all: a sum that does not fit has no word, it never wraps.
-/

namespace BufferBounds

/-- The word of value `n`, if `n` lies in the range of words. -/
def word? (n : Int) : Option Int64 :=
  if Int64.minValue.toInt ≤ n ∧ n ≤ Int64.maxValue.toInt then some (Int64.ofInt n) else none

/-- A word stands for exactly one integer. -/
theorem word?_eq_some_iff {n : Int} {w : Int64} : word? n = some w ↔ w.toInt = n := by
  rw [word?]
  constructor
  · intro h
    split at h
    · rename_i hn
      obtain rfl := Option.some.inj h
      exact Int64.toInt_ofInt_of_le hn.1 (Int.lt_of_le_of_lt hn.2 (by decide))
    · cases h
  · rintro rfl
    rw [if_pos ⟨Int64.minValue_le_toInt w, Int64.toInt_le w⟩, Int64.ofInt_toInt]

/-- An integer outside the range of words has none. -/
theorem word?_eq_none_iff {n : Int} :
    word? n = none ↔ n < Int64.minValue.toInt ∨ Int64.maxValue.toInt < n := by
  rw [word?]
  split
  · rename_i h
    exact ⟨nofun, fun h' => by omega⟩
  · rename_i h
    exact ⟨fun _ => by omega, fun _ => rfl⟩

end BufferBounds
