import Mathlib.Data.List.Basic
import Mathlib.Tactic.Common

/-!
# Prefix codes

An encoding of tokens as words in which no word is empty and none is a prefix of another is
read back in one way only.
-/

namespace Interact

/-- no word is empty, and none begins another -/
structure PrefixCode {τ α : Type} (enc : τ → List α) : Prop where
  ne_nil : ∀ t, enc t ≠ []
  eq_of_prefix : ∀ t u, enc t <+: enc u → t = u

namespace PrefixCode
variable {τ α : Type} {enc : τ → List α}

/-- **Unique parsing.** -/
theorem flatMap_injective (h : PrefixCode enc) :
    Function.Injective fun ts : List τ => ts.flatMap enc := by
  intro ts
  induction ts with
  | nil =>
    intro us hus
    cases us with
    | nil => rfl
    | cons u us =>
      have h0 : enc u ++ us.flatMap enc = [] := hus.symm
      exact absurd (List.append_eq_nil_iff.mp h0).1 (h.ne_nil u)
  | cons t ts ih =>
    intro us hus
    cases us with
    | nil =>
      have h0 : enc t ++ ts.flatMap enc = [] := hus
      exact absurd (List.append_eq_nil_iff.mp h0).1 (h.ne_nil t)
    | cons u us =>
      have he : enc t ++ ts.flatMap enc = enc u ++ us.flatMap enc := hus
      have htu : t = u := by
        have h1 : enc t <+: enc u ++ us.flatMap enc := ⟨_, he⟩
        rcases List.prefix_or_prefix_of_prefix h1 (List.prefix_append _ _) with hp | hp
        · exact h.eq_of_prefix t u hp
        · exact (h.eq_of_prefix u t hp).symm
      subst htu
      rw [ih (List.append_cancel_left he)]

end PrefixCode
end Interact
