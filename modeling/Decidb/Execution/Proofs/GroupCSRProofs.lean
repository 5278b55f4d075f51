import Decidb.Execution.PerGroups

/-!
# The rows of the groups are listed once

`buildGroupCSR` is a counting sort of the rows by their groups.
-/

namespace Decidb

open Relational

variable {ids : List (Option Nat)}

theorem rowsOfGroup_eq (g : Nat) : (entriesOf (groupOf ids) ids.length g).map id = rowsOfGroup ids g :=
  List.map_id _

/-- **Every row with a group is listed once**, under its own group and in row order. -/
theorem buildGroupCSR_lists {K : Nat} (hlt : ∀ row g, groupOf ids row = some g → g < K) :
    (buildGroupCSR ids K {}).Lists ids K := by
  unfold buildGroupCSR
  by_cases hempty : ids = [] ∨ K = 0
  · rw [if_pos hempty]
    have hnone : ∀ g, g < K → rowsOfGroup ids g = [] := by
      intro g hg
      rcases hempty with rfl | rfl
      · rfl
      · omega
    have hflat : (List.range K).flatMap (rowsOfGroup ids) = [] :=
      List.flatMap_eq_nil_iff.mpr fun g hg => hnone g (List.mem_range.mp hg)
    exact
      { slice_eq := fun g hg => by rw [hnone g hg]; simp [slice]
        flatRows_eq := hflat.symm
        nodup := List.nodup_nil }
  · rw [if_neg hempty, if_neg (by simp)]
    have hflat : (countingSort (groupOf ids) ids.length K id 0).2 =
        (List.range K).flatMap (rowsOfGroup ids) := by
      rw [countingSort_flat (fun row g _ h => hlt row g h)]
      exact List.flatMap_congr fun g _ => rowsOfGroup_eq g
    refine { slice_eq := ?_, flatRows_eq := hflat, nodup := ?_ }
    · intro g hg
      rw [← rowsOfGroup_eq]
      exact slice_countingSort id (fun row g _ h => hlt row g h) 0 hg
    · dsimp only
      rw [hflat]
      exact nodup_flatMap_entriesOf (groupOf ids) ids.length K

end Decidb
