import Decidb.Linear.System

/-!
# Programs and their refinement

A program is a system with a value at every assignment. One program refines another when it admits the
same assignments of the columns they share, and, optimized over its own columns, is worth the same there.
Refinements compose (`Program.Refines.trans`), so a chain of passes is one refinement.
-/

namespace Linear

variable {K : Type*}

/-- A system, and what an assignment is worth. -/
structure Program (K : Type*) extends System K where
  value : (Nat → K) → K

namespace Program

variable {better : K → K → Prop} {S T U : Program K} {P Q : (Nat → K) → Prop}

/-- A program reads its own columns only. -/
structure Scoped (S : Program K) : Prop where
  holds : ReadsBelow S.width S.Holds
  value : ∀ a b, AgreeBelow S.width a b → S.value a = S.value b

/-- An assignment the program accepts, than which it accepts nothing better. -/
structure IsOptimal (better : K → K → Prop) (S : Program K) (a : Nat → K) : Prop where
  holds : S.Holds a
  better : ∀ b, S.Holds b → better (S.value a) (S.value b)

/-- A program, and a condition of its own besides. -/
def under (S : Program K) (P : (Nat → K) → Prop) : Program K :=
  ⟨⟨S.width, fun a => S.Holds a ∧ P a⟩, S.value⟩

/-- `T` refines `S`, asking `P` of the columns of `S`, where `better v z` says that `v` is at least as good
as `z`: nothing `T` accepts is better than what `S` makes of it, and every assignment `S` accepts and `P`
admits has a completion that is as good. -/
structure Refines (better : K → K → Prop) (S T : Program K) (P : (Nat → K) → Prop) : Prop where
  width_le : S.width ≤ T.width
  sound : ∀ b, T.Holds b → S.Holds b ∧ P b ∧ better (S.value b) (T.value b)
  complete : ∀ a, S.Holds a → P a →
    ∃ b, AgreeBelow S.width b a ∧ T.Holds b ∧ T.value b = S.value a

namespace Refines

theorem refl [IsPreorder K better] (S : Program K) : Refines better S S fun _ => True where
  width_le := le_rfl
  sound _ hb := ⟨hb, trivial, Std.Refl.refl _⟩
  complete a ha _ := ⟨a, AgreeBelow.refl _ _, ha, rfl⟩

/-- Refinements compose when the second asks nothing about the columns the first added. -/
theorem trans [IsPreorder K better] (h : Refines better S T P) (h' : Refines better T U Q)
    (hQ : ReadsBelow S.width Q) : Refines better S U fun a => P a ∧ Q a where
  width_le := h.width_le.trans h'.width_le
  sound c hc := by
    obtain ⟨hT, hq, hv⟩ := h'.sound c hc
    obtain ⟨hS, hp, hv'⟩ := h.sound c hT
    exact ⟨hS, ⟨hp, hq⟩, IsTrans.trans _ _ _ hv' hv⟩
  complete a ha hpq := by
    obtain ⟨b, hba, hT, hv⟩ := h.complete a ha hpq.1
    obtain ⟨c, hcb, hU, hv'⟩ := h'.complete b hT (hQ a b hba.symm hpq.2)
    exact ⟨c, (hcb.mono h.width_le).trans hba, hU, hv'.trans hv⟩

/-- What a refinement asks may be restated on the assignments the smaller program accepts. -/
theorem congr (h : Refines better S T P) (hPQ : ∀ a, S.Holds a → (P a ↔ Q a)) :
    Refines better S T Q where
  width_le := h.width_le
  sound b hb := by
    obtain ⟨hS, hp, hv⟩ := h.sound b hb
    exact ⟨hS, (hPQ b hS).mp hp, hv⟩
  complete a ha hq := h.complete a ha ((hPQ a ha).mpr hq)

/-- Two refinements in a row, neither of which asks anything. -/
theorem trans_true [IsPreorder K better] (h : Refines better S T fun _ => True)
    (h' : Refines better T U fun _ => True) : Refines better S U fun _ => True :=
  (h.trans h' fun _ _ _ h => h).congr fun _ _ => and_self_iff

/-- An extension under which the value stays what it was. -/
theorem of_extends [IsPreorder K better] {T : Program K} (h : System.Extends S.toSystem T.toSystem P)
    (hS : S.Scoped) (hvalue : ∀ b, T.Holds b → T.value b = S.value b) : Refines better S T P where
  width_le := h.width_le
  sound b hb := by
    obtain ⟨hS, hp⟩ := h.holds hb
    exact ⟨hS, hp, hvalue b hb ▸ Std.Refl.refl _⟩
  complete a ha hp := by
    obtain ⟨b, hba, hb⟩ := (h.completes_iff a).mpr ⟨ha, hp⟩
    exact ⟨b, hba, hb, (hvalue b hb).trans (hS.value b a hba)⟩

/-- The two programs may carry conditions of their own, as long as those say of the columns of `S` what
`P` does. -/
theorem restrict (h : Refines better S T P) {R R' : (Nat → K) → Prop}
    (hR : ReadsBelow S.width R) (hQ : ReadsBelow S.width Q)
    (hask : ∀ b, S.Holds b → (R b ∧ Q b ↔ P b ∧ R' b)) :
    Refines better (S.under R) (T.under R') Q where
  width_le := h.width_le
  sound b hb := by
    obtain ⟨hS, hp, hv⟩ := h.sound b hb.1
    obtain ⟨hr, hq⟩ := (hask b hS).mpr ⟨hp, hb.2⟩
    exact ⟨⟨hS, hr⟩, hq, hv⟩
  complete a ha hq := by
    obtain ⟨b, hba, hT, hv⟩ := h.complete a ha.1 ((hask a ha.1).mp ⟨ha.2, hq⟩).1
    have hrb := (hask b (h.sound b hT).1).mp ⟨hR a b hba.symm ha.2, hQ a b hba.symm hq⟩
    exact ⟨b, hba, ⟨hT, hrb.2⟩, hv⟩

/-- Programs over the same columns that accept the same assignments at the same values. -/
theorem of_holds_iff [IsPreorder K better] (hw : T.width = S.width)
    (h : ∀ b, T.Holds b ↔ S.Holds b) (hvalue : ∀ b, S.Holds b → T.value b = S.value b) :
    Refines better S T fun _ => True where
  width_le := hw.ge
  sound b hb := by
    have hS := (h b).mp hb
    exact ⟨hS, trivial, hvalue b hS ▸ Std.Refl.refl _⟩
  complete a ha _ := ⟨a, AgreeBelow.refl _ _, (h a).mpr ha, hvalue a ha⟩

/-- **The same assignments**: what can be completed is what `S` accepts and `P` admits. -/
theorem completes_iff (h : Refines better S T P) (hS : S.Scoped) (hP : ReadsBelow S.width P)
    (a : Nat → K) : S.toSystem.Completes T.toSystem a ↔ S.Holds a ∧ P a := by
  constructor
  · rintro ⟨b, hba, hb⟩
    obtain ⟨hSb, hp, -⟩ := h.sound b hb
    exact ⟨hS.holds b a hba hSb, hP b a hba hp⟩
  · rintro ⟨ha, hp⟩
    obtain ⟨b, hba, hb, -⟩ := h.complete a ha hp
    exact ⟨b, hba, hb⟩

/-- **The same values**: over the completions of an assignment the refinement is best at its value. -/
theorem best (h : Refines better S T P) (hS : S.Scoped) {a : Nat → K} (ha : S.Holds a) (hp : P a) :
    (∃ b, AgreeBelow S.width b a ∧ T.Holds b ∧ T.value b = S.value a) ∧
      ∀ b, AgreeBelow S.width b a → T.Holds b → better (S.value a) (T.value b) := by
  refine ⟨h.complete a ha hp, fun b hba hb => ?_⟩
  rw [← hS.value b a hba]
  exact (h.sound b hb).2.2

/-- **Optima come back**: an optimum of the refinement is one of what it refines, at the same value. -/
theorem optimal_of_optimal [IsPartialOrder K better] (h : Refines better S T P) {b : Nat → K}
    (hb : T.IsOptimal better b) : (S.under P).IsOptimal better b ∧ S.value b = T.value b := by
  obtain ⟨hS, hp, hv⟩ := h.sound b hb.holds
  refine ⟨⟨⟨hS, hp⟩, fun a ha => ?_⟩, ?_⟩
  · obtain ⟨c, -, hc, hcv⟩ := h.complete a ha.1 ha.2
    have hbest := hb.better c hc
    rw [hcv] at hbest
    exact IsTrans.trans _ _ _ hv hbest
  · obtain ⟨c, -, hc, hcv⟩ := h.complete b hS hp
    have hbest := hb.better c hc
    rw [hcv] at hbest
    exact Std.Antisymm.antisymm _ _ hv hbest

/-- **Optima are kept**: an optimum has a completion that is one of the refinement. -/
theorem exists_optimal [IsPreorder K better] (h : Refines better S T P) {a : Nat → K}
    (ha : (S.under P).IsOptimal better a) : ∃ b, AgreeBelow S.width b a ∧ T.IsOptimal better b := by
  obtain ⟨b, hba, hb, hv⟩ := h.complete a ha.holds.1 ha.holds.2
  refine ⟨b, hba, hb, fun c hc => ?_⟩
  obtain ⟨hS, hp, hcv⟩ := h.sound c hc
  rw [hv]
  exact IsTrans.trans _ _ _ (ha.better c ⟨hS, hp⟩) hcv

end Refines

end Program

end Linear
