import Mathlib.Algebra.GroupWithZero.Nat
import Mathlib.Algebra.Ring.Int.Defs
import Mathlib.Logic.Basic
import Mathlib.Tactic.Common

/-!
# Programs that issue operations

A program returns a value or issues one operation and goes on with the result that its
environment gives back.  The text of a program fixes which operations are issued and in which
order; what an operation answers is left to an environment (`Interact.Exec`), so that one text
can be run against many environments.

* `Prog Op Res α`   programs over operations `Op`, operation `o` answering in `Res o`;
* `Prog.bind`       sequencing, with the `Monad` and `LawfulMonad` instances;
* `Prog.Uses O p`   every operation that `p` can issue satisfies `O`;
* `Prog.Reaches O U p`  every complete run of `p` issues one operation of `U`, and otherwise
                    operations of `O`;
* `Prog.Until O U F p`  the same, and the operations after that one are all `F`;
* `Prog.Staged A S B U F p`  the same, where the operations are `A` up to one of `S` and `B` from
                    there on;
* `Prog.times n p`  `p` run `n` times, one after the other.

Programs are finite.  A loop with no bound of its own is written by recursion on a number that
the caller picks; a statement about all its runs then quantifies over that number.
-/

namespace Interact

inductive Prog (Op : Type) (Res : Op → Type) (α : Type) where
  | ret (a : α)
  | op (o : Op) (k : Res o → Prog Op Res α)

namespace Prog
variable {Op : Type} {Res : Op → Type} {α β γ : Type}

def bind : Prog Op Res α → (α → Prog Op Res β) → Prog Op Res β
  | .ret a, f => f a
  | .op o k, f => .op o fun r => (k r).bind f

instance : Monad (Prog Op Res) where
  pure := .ret
  bind := bind

/-- issue one operation and return its answer -/
def call (o : Op) : Prog Op Res (Res o) := .op o .ret

theorem op_bind (o : Op) (k : Res o → Prog Op Res α) (f : α → Prog Op Res β) :
    (Prog.op o k >>= f) = .op o fun r => k r >>= f := rfl

theorem bind_ret (p : Prog Op Res α) : (p >>= Prog.ret) = p := by
  induction p with
  | ret a => rfl
  | op o k ih =>
    rw [op_bind]
    exact congrArg (Prog.op o) (funext ih)

theorem bind_assoc (p : Prog Op Res α) (f : α → Prog Op Res β) (g : β → Prog Op Res γ) :
    ((p >>= f) >>= g) = (p >>= fun a => f a >>= g) := by
  induction p with
  | ret a => rfl
  | op o k ih =>
    rw [op_bind, op_bind, op_bind]
    exact congrArg (Prog.op o) (funext ih)

instance : LawfulMonad (Prog Op Res) :=
  LawfulMonad.mk' _ (fun p => bind_ret p) (fun _ _ => rfl) bind_assoc

/-- the value of a program that is done -/
def result : Prog Op Res α → Option α
  | .ret a => some a
  | .op _ _ => none

/-- the operation that a program issues first -/
def next : Prog Op Res α → Option Op
  | .ret _ => none
  | .op o _ => some o

theorem eq_of_next {p : Prog Op Res α} {o : Op} (h : p.next = some o) : ∃ k, p = .op o k := by
  cases p with
  | ret b => cases h
  | op o' k =>
    obtain rfl : o' = o := Option.some.inj h
    exact ⟨k, rfl⟩

theorem eq_of_result {p : Prog Op Res α} {a : α} (h : p.result = some a) : p = .ret a := by
  cases p with
  | ret b => exact congrArg Prog.ret (Option.some.inj h)
  | op o k => cases h

/-- every operation that the program can issue satisfies `O` -/
def Uses (O : Op → Prop) : Prog Op Res α → Prop
  | .ret _ => True
  | .op o k => O o ∧ ∀ r, (k r).Uses O

section
variable {O O' : Op → Prop}

@[simp] theorem uses_ret (a : α) : Uses O (Prog.ret a : Prog Op Res α) := trivial
@[simp] theorem uses_pure (a : α) : Uses O (pure a : Prog Op Res α) := trivial
@[simp] theorem uses_call (o : Op) : Uses O (call o : Prog Op Res (Res o)) ↔ O o :=
  ⟨fun h => h.1, fun h => ⟨h, fun _ => trivial⟩⟩

theorem uses_any (p : Prog Op Res α) : p.Uses fun _ => True := by
  induction p with
  | ret a => trivial
  | op o k ih => exact ⟨trivial, ih⟩

theorem Uses.bind {p : Prog Op Res α} {f : α → Prog Op Res β} (hp : p.Uses O)
    (hf : ∀ a, (f a).Uses O) : (p >>= f).Uses O := by
  induction p with
  | ret a => exact hf a
  | op o k ih => exact ⟨hp.1, fun r => ih r (hp.2 r)⟩

theorem Uses.mono {p : Prog Op Res α} (hp : p.Uses O) (h : ∀ o, O o → O' o) : p.Uses O' := by
  induction p with
  | ret a => trivial
  | op o k ih => exact ⟨h o hp.1, fun r => ih r (hp.2 r)⟩

theorem Uses.ite {c : Prop} [Decidable c] {p q : Prog Op Res α} (hp : p.Uses O)
    (hq : q.Uses O) : (if c then p else q).Uses O := by
  split
  · exact hp
  · exact hq

end

/-- no path of the program ends before an operation of `U`; the others are all `O` -/
def Reaches (O U : Op → Prop) : Prog Op Res α → Prop
  | .ret _ => False
  | .op o k => (U o ∧ ∀ r, (k r).Uses O) ∨ (O o ∧ ∀ r, (k r).Reaches O U)

section
variable {O U : Op → Prop}

theorem Reaches.uses {p : Prog Op Res α} (hp : p.Reaches O U) :
    p.Uses fun o => O o ∨ U o := by
  induction p with
  | ret a => exact hp.elim
  | op o k ih =>
    rcases hp with ⟨hu, hk⟩ | ⟨ho, hk⟩
    · exact ⟨.inr hu, fun r => (hk r).mono fun _ => .inl⟩
    · exact ⟨.inl ho, fun r => ih r (hk r)⟩

theorem Reaches.mono {O' : Op → Prop} {p : Prog Op Res α} (hp : p.Reaches O U)
    (h : ∀ o, O o → O' o) : p.Reaches O' U := by
  induction p with
  | ret a => exact hp.elim
  | op o k ih =>
    rcases hp with ⟨hu, hk⟩ | ⟨ho, hk⟩
    · exact .inl ⟨hu, fun r => (hk r).mono h⟩
    · exact .inr ⟨h o ho, fun r => ih r (hk r)⟩

theorem Uses.reaches {p : Prog Op Res α} {f : α → Prog Op Res β} (hp : p.Uses O)
    (hf : ∀ a, (f a).Reaches O U) : (p >>= f).Reaches O U := by
  induction p with
  | ret a => exact hf a
  | op o k ih => exact .inr ⟨hp.1, fun r => ih r (hp.2 r)⟩

theorem Reaches.ite {c : Prop} [Decidable c] {p q : Prog Op Res α} (hp : p.Reaches O U)
    (hq : q.Reaches O U) : (if c then p else q).Reaches O U := by
  split
  · exact hp
  · exact hq

end

/-- no path of the program ends before an operation of `U`; those before it are all `O`, those
after it all `F` -/
def Until (O U F : Op → Prop) : Prog Op Res α → Prop
  | .ret _ => False
  | .op o k => (U o ∧ ∀ r, (k r).Uses F) ∨ (O o ∧ ∀ r, (k r).Until O U F)

section
variable {O U F : Op → Prop}

theorem Uses.until {p : Prog Op Res α} {f : α → Prog Op Res β} (hp : p.Uses O)
    (hf : ∀ a, (f a).Until O U F) : (p >>= f).Until O U F := by
  induction p with
  | ret a => exact hf a
  | op o k ih => exact .inr ⟨hp.1, fun r => ih r (hp.2 r)⟩

theorem Until.uses {p : Prog Op Res α} (hp : p.Until O U F) :
    p.Uses fun o => O o ∨ U o ∨ F o := by
  induction p with
  | ret a => exact hp.elim
  | op o k ih =>
    rcases hp with ⟨hu, hk⟩ | ⟨ho, hk⟩
    · exact ⟨.inr (.inl hu), fun r => (hk r).mono fun _ h => .inr (.inr h)⟩
    · exact ⟨.inl ho, fun r => ih r (hk r)⟩

theorem Until.bind {p : Prog Op Res α} {f : α → Prog Op Res β} (hp : p.Until O U F)
    (hf : ∀ a, (f a).Uses F) : (p >>= f).Until O U F := by
  induction p with
  | ret a => exact hp.elim
  | op o k ih =>
    rcases hp with ⟨hu, hk⟩ | ⟨ho, hk⟩
    · exact .inl ⟨hu, fun r => (hk r).bind hf⟩
    · exact .inr ⟨ho, fun r => ih r (hk r)⟩

theorem Until.mono {O' F' : Op → Prop} {p : Prog Op Res α} (hp : p.Until O U F)
    (hO : ∀ o, O o → O' o) (hF : ∀ o, F o → F' o) : p.Until O' U F' := by
  induction p with
  | ret a => exact hp.elim
  | op o k ih =>
    rcases hp with ⟨hu, hk⟩ | ⟨ho, hk⟩
    · exact .inl ⟨hu, fun r => (hk r).mono hF⟩
    · exact .inr ⟨hO o ho, fun r => ih r (hk r)⟩

end

/-- `Until` in two stages: the operations before one of `U` are `A` up to one of `S`, if there is
one, and `B` after it -/
def Staged (A S B U F : Op → Prop) : Prog Op Res α → Prop
  | .ret _ => False
  | .op o k => (U o ∧ ∀ r, (k r).Uses F) ∨ (S o ∧ ∀ r, (k r).Until B U F) ∨
      (A o ∧ ∀ r, (k r).Staged A S B U F)

section
variable {A S B U F : Op → Prop}

theorem Uses.staged {p : Prog Op Res α} {f : α → Prog Op Res β} (hp : p.Uses A)
    (hf : ∀ a, (f a).Staged A S B U F) : (p >>= f).Staged A S B U F := by
  induction p with
  | ret a => exact hf a
  | op o k ih => exact .inr (.inr ⟨hp.1, fun r => ih r (hp.2 r)⟩)

theorem Staged.bind {p : Prog Op Res α} {f : α → Prog Op Res β} (hp : p.Staged A S B U F)
    (hf : ∀ a, (f a).Uses F) : (p >>= f).Staged A S B U F := by
  induction p with
  | ret a => exact hp.elim
  | op o k ih =>
    rcases hp with ⟨hu, hk⟩ | ⟨hs, hk⟩ | ⟨ha, hk⟩
    · exact .inl ⟨hu, fun r => (hk r).bind hf⟩
    · exact .inr (.inl ⟨hs, fun r => (hk r).bind hf⟩)
    · exact .inr (.inr ⟨ha, fun r => ih r (hk r)⟩)

theorem Staged.ite {c : Prop} [Decidable c] {p q : Prog Op Res α} (hp : p.Staged A S B U F)
    (hq : q.Staged A S B U F) : (if c then p else q).Staged A S B U F := by
  split
  · exact hp
  · exact hq

theorem Staged.mono {A' S' B' F' : Op → Prop} {p : Prog Op Res α} (hp : p.Staged A S B U F)
    (hA : ∀ o, A o → A' o) (hS : ∀ o, S o → S' o) (hB : ∀ o, B o → B' o)
    (hF : ∀ o, F o → F' o) : p.Staged A' S' B' U F' := by
  induction p with
  | ret a => exact hp.elim
  | op o k ih =>
    rcases hp with ⟨hu, hk⟩ | ⟨hs, hk⟩ | ⟨ha, hk⟩
    · exact .inl ⟨hu, fun r => (hk r).mono hF⟩
    · exact .inr (.inl ⟨hS o hs, fun r => (hk r).mono hB hF⟩)
    · exact .inr (.inr ⟨hA o ha, fun r => ih r (hk r)⟩)

end

/-- the program `n` times in a row -/
def times : Nat → Prog Op Res α → Prog Op Res Unit
  | 0, _ => pure ()
  | n + 1, p => p >>= fun _ => times n p

theorem times_succ (n : Nat) (p : Prog Op Res α) :
    times (n + 1) p = (p >>= fun _ => times n p) := rfl

end Prog

/-! ## small index types

What an operation is about (a line, a chip, a channel, a port, a source) is counted by `Fin n` for a
literal `n`.  What the numerals and the membership in lists of them rest on is named here, once for
each `n`. -/

instance neZeroFour : NeZero 4 := ⟨by decide⟩
instance neZeroEight : NeZero 8 := ⟨by decide⟩
instance neZeroThirtyTwo : NeZero 32 := ⟨by decide⟩
instance neZeroSixtyFour : NeZero 64 := ⟨by decide⟩

instance lawfulBEqEight : LawfulBEq (Fin 8) := inferInstance

end Interact
