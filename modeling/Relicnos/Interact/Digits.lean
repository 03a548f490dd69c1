import Mathlib.Data.Nat.Digits.Defs
import Mathlib.Tactic.Ring

/-!
# Fields of a number

A little-endian stream of `b`-valued fields is the number `Nat.ofDigits b` of them, whatever the
width of the fields it is cut into.

* `fields b v n`      the `n` lowest fields of `v`;
* `ofDigits_fields`   they make up `v` again, as far as they reach;
* `fields_ofDigits`   and the fields of a stream are what it was made of.
-/

namespace Interact

def fields (b v n : Nat) : List Nat := (List.range n).map fun i => v / b ^ i % b

theorem fields_succ (b v n : Nat) : fields b v (n + 1) = fields b v n ++ [v / b ^ n % b] := by
  unfold fields
  rw [List.range_succ, List.map_append]
  rfl

@[simp] theorem length_fields (b v n : Nat) : (fields b v n).length = n := by
  unfold fields
  rw [List.length_map, List.length_range]

theorem getElem_fields {b v n i : Nat} (h : i < (fields b v n).length) :
    (fields b v n)[i] = v / b ^ i % b := by
  simp [fields]

theorem ofDigits_fields (b v n : Nat) : Nat.ofDigits b (fields b v n) = v % b ^ n := by
  induction n with
  | zero => rw [pow_zero, Nat.mod_one]; rfl
  | succ n ih =>
    rw [fields_succ, Nat.ofDigits_append, ih, length_fields, Nat.ofDigits_singleton, pow_succ,
      Nat.mod_mul]

theorem fields_ofDigits {b : Nat} {ds : List Nat} (h : ∀ d ∈ ds, d < b) :
    fields b (Nat.ofDigits b ds) ds.length = ds := by
  apply List.ext_getElem
  · rw [length_fields]
  · intro i hi hi'
    have hpos : 0 < b := Nat.lt_of_le_of_lt (Nat.zero_le _) (h _ (List.getElem_mem hi'))
    have hd : ds.drop i = ds[i] :: ds.drop (i + 1) := List.drop_eq_getElem_cons hi'
    rw [getElem_fields, Nat.ofDigits_div_pow_eq_ofDigits_drop i hpos ds h, hd, Nat.ofDigits_cons,
      Nat.add_mul_mod_self_left, Nat.mod_eq_of_lt (h _ (List.getElem_mem hi'))]

end Interact
