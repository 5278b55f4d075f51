import Mathlib.Data.Option.NAry
import Mathlib.Data.List.Basic

/-!
# Folding values that may be missing

The values of a list are combined by an operation; one missing value makes the whole missing, as NULL
does in SQL arithmetic.
-/

namespace Decidb

/-- The values folded together; none when one of them is missing. -/
def strictFold {α : Type*} (op : α → α → α) (unit : α) (values : List (Option α)) : Option α :=
  values.foldr (Option.map₂ op) (some unit)

variable {α β : Type*} {op : α → α → α} {unit : α}

@[simp] theorem strictFold_nil : strictFold op unit [] = some unit := rfl

@[simp] theorem strictFold_cons (value : Option α) (values : List (Option α)) :
    strictFold op unit (value :: values) = Option.map₂ op value (strictFold op unit values) := rfl

theorem strictFold_singleton [Std.LawfulRightIdentity op unit] (value : Option α) :
    strictFold op unit [value] = value := by
  cases value with
  | none => rfl
  | some a => exact congrArg some (Std.LawfulRightIdentity.right_id a)

theorem map₂_assoc_of_associative [Std.Associative op] (a b c : Option α) :
    Option.map₂ op (Option.map₂ op a b) c = Option.map₂ op a (Option.map₂ op b c) :=
  Option.map₂_assoc Std.Associative.assoc

theorem strictFold_append [Std.Associative op] [Std.LawfulLeftIdentity op unit]
    (values more : List (Option α)) :
    strictFold op unit (values ++ more) = Option.map₂ op (strictFold op unit values) (strictFold op unit more) := by
  induction values with
  | nil =>
    rw [List.nil_append, strictFold_nil]
    cases strictFold op unit more with
    | none => rfl
    | some a => exact congrArg some (Std.LawfulLeftIdentity.left_id a).symm
  | cons value values ih =>
    rw [List.cons_append, strictFold_cons, strictFold_cons, ih, map₂_assoc_of_associative]

/-- The values a test passes and those it does not fold to what all of them do. -/
theorem strictFold_filter [Std.Associative op] [Std.Commutative op] [Std.LawfulLeftIdentity op unit]
    (p : β → Bool) (f : β → Option α) (items : List β) :
    Option.map₂ op (strictFold op unit ((items.filter p).map f))
        (strictFold op unit ((items.filter fun b => !p b).map f)) =
      strictFold op unit (items.map f) := by
  induction items with
  | nil => exact congrArg some (Std.LawfulLeftIdentity.left_id unit)
  | cons item items ih =>
    rw [List.map_cons, strictFold_cons, ← ih]
    by_cases h : p item = true
    · rw [List.filter_cons_of_pos h, List.filter_cons_of_neg (by simpa using h), List.map_cons, strictFold_cons,
        map₂_assoc_of_associative]
    · have hcomm : ∀ a b d : α, op a (op b d) = op b (op a d) := by
        intro a b d
        have hleft : op (op a b) d = op a (op b d) := Std.Associative.assoc a b d
        have hswap : op a b = op b a := Std.Commutative.comm a b
        have hright : op (op b a) d = op b (op a d) := Std.Associative.assoc b a d
        rw [← hleft, hswap, hright]
      rw [List.filter_cons_of_neg h, List.filter_cons_of_pos (by simpa using h), List.map_cons, strictFold_cons]
      exact Option.map₂_left_comm hcomm

/-- A map that the operation commutes with may be taken out. -/
theorem strictFold_map {g : α → α} (hop : ∀ a b, g (op a b) = op (g a) (g b)) (hunit : g unit = unit)
    (values : List (Option α)) :
    strictFold op unit (values.map (Option.map g)) = (strictFold op unit values).map g := by
  induction values with
  | nil => exact congrArg some hunit.symm
  | cons value values ih =>
    rw [List.map_cons, strictFold_cons, strictFold_cons, ih]
    cases value with
    | none => rfl
    | some a =>
      cases strictFold op unit values with
      | none => rfl
      | some b => exact congrArg some (hop a b).symm

end Decidb
