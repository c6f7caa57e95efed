import CodeAtlas.Proofs.Encoding.Narrowing
import Mathlib.Data.List.Forall2

/-!
# Operands one after the other

An instruction is read by reading its operands from left to right and putting what was read in their places.
This file separates the two: which bytes are read is a matter of the list of operands alone.

* `Grammar.each` — reads something for each item of a list, in order;
* `Grammar.Yields` — some bytes are read as a given value, and `Yields.of_each` — item by item;
* `InstructionOf.withOperands?` — an instruction with other operands;
* `InstructionOf.traverse_eq` — reading an instruction is reading its operands and putting them in.
-/

namespace CodeAtlas

/-! ## Sequences of grammars -/

namespace Grammar

variable {α β γ : Type}

theorem andThen_assoc (g : Grammar α) (f : α → Grammar β) (h : β → Grammar γ) :
    (g.andThen f).andThen h = g.andThen fun a => (f a).andThen h := by
  induction g with
  | accept a => rfl
  | reject => rfl
  | byte next ih => exact congrArg byte (funext ih)

/-- What a grammar reads for each item of a list, in order. -/
def each (f : α → Grammar β) : List α → Grammar (List β)
  | [] => accept []
  | x :: xs => (f x).andThen fun y => (each f xs).andThen fun ys => accept (y :: ys)

/-- Reading for each of some items, and going on with all that was read. -/
theorem each_cons_andThen (f : α → Grammar β) (x : α) (xs : List α) (h : List β → Grammar γ) :
    (each f (x :: xs)).andThen h = (f x).andThen fun y => (each f xs).andThen fun ys => h (y :: ys) := by
  rw [each, andThen_assoc]
  congr 1
  funext y
  exact andThen_assoc _ _ _

theorem each_two_andThen (f : α → Grammar β) (x y : α) (h : List β → Grammar γ) :
    (each f [x, y]).andThen h = (f x).andThen fun a => (f y).andThen fun b => h [a, b] := by
  rw [each_cons_andThen]
  congr 1
  funext a
  exact each_cons_andThen f y [] fun ys => h (a :: ys)

theorem each_three_andThen (f : α → Grammar β) (x y z : α) (h : List β → Grammar γ) :
    (each f [x, y, z]).andThen h =
      (f x).andThen fun a => (f y).andThen fun b => (f z).andThen fun c => h [a, b, c] := by
  rw [each_cons_andThen]
  congr 1
  funext a
  exact each_two_andThen f y z fun ys => h (a :: ys)

/-- Some bytes are read as the value. -/
def Yields (g : Grammar α) (a : α) : Prop :=
  ∃ bs rest, g.run bs = .accepted a rest

theorem Yields.of_andThen {g : Grammar α} {f : α → Grammar β} {b : β} (h : (g.andThen f).Yields b) :
    ∃ a, g.Yields a ∧ (f a).Yields b := by
  obtain ⟨bs, rest, hrun⟩ := h
  obtain ⟨a, mid, hfirst, hsecond⟩ := exists_of_run_andThen hrun
  exact ⟨a, ⟨bs, mid, hfirst⟩, ⟨mid, rest, hsecond⟩⟩

theorem Yields.eq_of_accept {a b : α} (h : (accept a).Yields b) : b = a := by
  obtain ⟨bs, rest, hrun⟩ := h
  rw [run_accept] at hrun
  cases hrun
  rfl

/-- What is read for some items is what is read for each of them. -/
theorem Yields.of_each {f : α → Grammar β} :
    ∀ {xs : List α} {ys : List β}, (each f xs).Yields ys → List.Forall₂ (fun x y => (f x).Yields y) xs ys := by
  intro xs
  induction xs with
  | nil =>
    intro ys h
    obtain rfl := h.eq_of_accept
    exact .nil
  | cons x xs ih =>
    intro ys h
    obtain ⟨y, hy, htail⟩ := h.of_andThen
    obtain ⟨zs, hzs, hlast⟩ := htail.of_andThen
    obtain rfl := hlast.eq_of_accept
    exact .cons hy (ih hzs)

end Grammar

open Grammar

namespace InstructionOf

variable {α β : Type}

/-! ## Other operands in the same instruction -/

/-- The instruction with other operands, if there are as many as it has. -/
def withOperands? : InstructionOf α → List β → Option (InstructionOf β)
  | .plain op, [] => some (.plain op)
  | .unary op _, [x] => some (.unary op x)
  | .binary op _ _, [x, y] => some (.binary op x y)
  | .imul _ _ none, [dst, src] => some (.imul dst src none)
  | .imul _ _ (some _), [dst, src, factor] => some (.imul dst src (some factor))
  | .doubleShift op _ _ _, [dst, src, count] => some (.doubleShift op dst src count)
  | .cmovcc c _ _, [dst, src] => some (.cmovcc c dst src)
  | .setcc c _, [dst] => some (.setcc c dst)
  | .jcc c _, [target] => some (.jcc c target)
  | .bswap r, [] => some (.bswap r)
  | .lea dst src, [] => some (.lea dst src)
  | .address op a, [] => some (.address op a)
  | _, _ => none

theorem exists_withOperands? (i : InstructionOf α) {ys : List β} (h : i.operands.length = ys.length) :
    ∃ j, i.withOperands? ys = some j := by
  cases i with
  | plain _ | bswap _ | lea _ _ | address _ _ =>
    obtain rfl := List.length_eq_zero_iff.1 h.symm
    exact ⟨_, rfl⟩
  | unary _ _ | setcc _ _ | jcc _ _ =>
    obtain ⟨x, rfl⟩ := List.length_eq_one_iff.1 h.symm
    exact ⟨_, rfl⟩
  | binary _ _ _ | cmovcc _ _ _ =>
    obtain ⟨x, y, rfl⟩ := List.length_eq_two.1 h.symm
    exact ⟨_, rfl⟩
  | doubleShift _ _ _ _ =>
    obtain ⟨x, y, z, rfl⟩ := List.length_eq_three.1 h.symm
    exact ⟨_, rfl⟩
  | imul _ _ factor =>
    cases factor with
    | none =>
      obtain ⟨x, y, rfl⟩ := List.length_eq_two.1 h.symm
      exact ⟨_, rfl⟩
    | some _ =>
      obtain ⟨x, y, z, rfl⟩ := List.length_eq_three.1 h.symm
      exact ⟨_, rfl⟩

/-- Accepts an instruction if there is one. -/
def given : Option (InstructionOf β) → Grammar (InstructionOf β)
  | some i => .accept i
  | none => .reject

/-- **Reading an instruction is reading its operands** and putting them in. -/
theorem traverse_eq (f : α → Grammar β) (i : InstructionOf α) :
    i.traverse f = (each f i.operands).andThen fun ys => given (i.withOperands? ys) := by
  cases i with
  | plain op => rfl
  | unary op x => exact (each_cons_andThen f x [] fun ys => given ((unary op x).withOperands? ys)).symm
  | binary op x y => exact (each_two_andThen f x y fun ys => given ((binary op x y).withOperands? ys)).symm
  | imul dst src factor =>
    cases factor with
    | none =>
      exact (each_two_andThen f dst src fun ys => given ((imul dst src none).withOperands? ys)).symm
    | some factor =>
      exact (each_three_andThen f dst src factor fun ys =>
        given ((imul dst src (some factor)).withOperands? ys)).symm
  | doubleShift op dst src count =>
    exact (each_three_andThen f dst src count fun ys =>
      given ((doubleShift op dst src count).withOperands? ys)).symm
  | cmovcc c dst src =>
    exact (each_two_andThen f dst src fun ys => given ((cmovcc c dst src).withOperands? ys)).symm
  | setcc c dst => exact (each_cons_andThen f dst [] fun ys => given ((setcc c dst).withOperands? ys)).symm
  | jcc c target =>
    exact (each_cons_andThen f target [] fun ys => given ((jcc c target).withOperands? ys)).symm
  | bswap r => rfl
  | lea dst src => rfl
  | address op a => rfl

end InstructionOf

end CodeAtlas
