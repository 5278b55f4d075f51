import Decidb.Linear.Form

/-!
# Systems over a growing block of columns

A formulation pass appends columns and rows to a system that already has some. What the pass means
for the columns that were there before is `Extends`: which of their assignments can be completed.
Passes compose (`Extends.trans`), and so do loops of passes (`Extends.foldlM`).
-/

namespace Linear

variable {K : Type*}

/-- Two assignments agree on the first `n` columns. -/
def AgreeBelow (n : Nat) (a b : Nat → K) : Prop := ∀ c, c < n → a c = b c

namespace AgreeBelow

variable {n m : Nat} {a b c : Nat → K}

theorem refl (n : Nat) (a : Nat → K) : AgreeBelow n a a := fun _ _ => rfl

theorem symm (h : AgreeBelow n a b) : AgreeBelow n b a := fun c hc => (h c hc).symm

theorem trans (h : AgreeBelow n a b) (h' : AgreeBelow n b c) : AgreeBelow n a c :=
  fun i hi => (h i hi).trans (h' i hi)

theorem mono (h : AgreeBelow n a b) (hm : m ≤ n) : AgreeBelow m a b :=
  fun c hc => h c (Nat.lt_of_lt_of_le hc hm)

/-- The columns from `n` on may be given any values. -/
theorem exists_extend (n : Nat) (a v : Nat → K) :
    ∃ b, AgreeBelow n b a ∧ ∀ i, b (n + i) = v i :=
  ⟨fun c => if c < n then a c else v (c - n), fun _ hc => if_pos hc, fun i => by simp⟩

end AgreeBelow

/-- A property of assignments that reads only the first `n` columns. -/
def ReadsBelow (n : Nat) (P : (Nat → K) → Prop) : Prop :=
  ∀ a b, AgreeBelow n a b → P a → P b

namespace ReadsBelow

variable {n m : Nat} {P Q : (Nat → K) → Prop}

theorem iff (h : ReadsBelow n P) {a b : Nat → K} (hab : AgreeBelow n a b) : P a ↔ P b :=
  ⟨h a b hab, h b a hab.symm⟩

theorem mono (h : ReadsBelow n P) (hm : n ≤ m) : ReadsBelow m P :=
  fun a b hab => h a b (hab.mono hm)

theorem and (hP : ReadsBelow n P) (hQ : ReadsBelow n Q) : ReadsBelow n fun a => P a ∧ Q a :=
  fun a b hab h => ⟨hP a b hab h.1, hQ a b hab h.2⟩

theorem forall_mem {α : Type*} {l : List α} {P : α → (Nat → K) → Prop}
    (h : ∀ x ∈ l, ReadsBelow n (P x)) : ReadsBelow n fun a => ∀ x ∈ l, P x a :=
  fun a b hab hP x hx => h x hx a b hab (hP x hx)

end ReadsBelow

/-- A row reads below `n` when its columns lie there. -/
theorem Row.readsBelow [Semiring K] [LE K] {n : Nat} {r : Row Nat K}
    (h : ∀ t ∈ r.form, t.1 < n) : ReadsBelow n r.Holds :=
  fun _ _ hab hr => (Row.holds_congr fun t ht => hab t.1 (h t ht)).mp hr

/-- A system: how many columns it has, and the assignments it accepts. -/
structure System (K : Type*) where
  width : Nat
  Holds : (Nat → K) → Prop

namespace System

variable {S T U : System K} {P Q : (Nat → K) → Prop}

/-- `a` can be completed to an assignment `T` accepts without touching the columns of `S`. -/
def Completes (S T : System K) (a : Nat → K) : Prop :=
  ∃ b, AgreeBelow S.width b a ∧ T.Holds b

/-- `T` extends `S` and asks `P` of the columns of `S`: exactly the assignments `S` accepts and `P`
admits can be completed. -/
structure Extends (S T : System K) (P : (Nat → K) → Prop) : Prop where
  width_le : S.width ≤ T.width
  completes_iff : ∀ a, S.Completes T a ↔ S.Holds a ∧ P a

namespace Extends

/-- Whatever `T` accepts is accepted by `S` and admitted by `P`. -/
theorem holds (h : Extends S T P) {b : Nat → K} (hb : T.Holds b) : S.Holds b ∧ P b :=
  (h.completes_iff b).mp ⟨b, AgreeBelow.refl _ _, hb⟩

theorem refl (S : System K) (hS : ReadsBelow S.width S.Holds) : Extends S S fun _ => True where
  width_le := Nat.le_refl _
  completes_iff a := by
    constructor
    · rintro ⟨b, hab, hb⟩
      exact ⟨hS b a hab hb, trivial⟩
    · rintro ⟨ha, -⟩
      exact ⟨a, AgreeBelow.refl _ _, ha⟩

/-- Adding constraints on existing columns asks exactly those constraints. -/
theorem of_holds_iff (hw : T.width = S.width) (hT : ReadsBelow S.width T.Holds)
    (h : ∀ a, T.Holds a ↔ S.Holds a ∧ P a) : Extends S T P where
  width_le := hw.ge
  completes_iff a := by
    constructor
    · rintro ⟨b, hab, hb⟩
      exact (h a).mp (hT b a hab hb)
    · intro ha
      exact ⟨a, AgreeBelow.refl _ _, (h a).mpr ha⟩

/-- Extensions compose when the second asks nothing about the columns the first added. -/
theorem trans (h₁ : Extends S T P) (h₂ : Extends T U Q) (hQ : ReadsBelow S.width Q) :
    Extends S U fun a => P a ∧ Q a where
  width_le := h₁.width_le.trans h₂.width_le
  completes_iff a := by
    constructor
    · rintro ⟨b, hab, hb⟩
      obtain ⟨hT, hq⟩ := h₂.holds hb
      obtain ⟨hS, hp⟩ := (h₁.completes_iff a).mp ⟨b, hab, hT⟩
      exact ⟨hS, hp, hQ b a hab hq⟩
    · rintro ⟨hS, hp, hq⟩
      obtain ⟨b, hba, hT⟩ := (h₁.completes_iff a).mpr ⟨hS, hp⟩
      obtain ⟨c, hcb, hU⟩ := (h₂.completes_iff b).mpr ⟨hT, hQ a b hba.symm hq⟩
      exact ⟨c, (hcb.mono h₁.width_le).trans hba, hU⟩

/-- What an extension asks may be restated on the assignments the smaller system accepts. -/
theorem congr (h : Extends S T P) (hPQ : ∀ a, S.Holds a → (P a ↔ Q a)) : Extends S T Q where
  width_le := h.width_le
  completes_iff a := by
    rw [h.completes_iff a]
    exact and_congr_right fun ha => hPQ a ha

/-- A column appended with a box of its own and then asked `L` of: the smaller system is asked that
some value of the box meets `L`. -/
theorem exists_column {A : K → Prop} {L : (Nat → K) → K → Prop} (hS : ReadsBelow S.width S.Holds)
    (hw : T.width = S.width + 1) (hT : ∀ b, T.Holds b ↔ S.Holds b ∧ A (b S.width))
    (hL : ∀ y, ReadsBelow S.width fun a => L a y)
    (hU : Extends T U fun b => L b (b S.width)) : Extends S U fun a => ∃ y, A y ∧ L a y where
  width_le := by
    have := hU.width_le
    omega
  completes_iff a := by
    constructor
    · rintro ⟨c, hca, hc⟩
      obtain ⟨hcT, hcL⟩ := hU.holds hc
      obtain ⟨hcS, hcA⟩ := (hT c).mp hcT
      exact ⟨hS c a hca hcS, c S.width, hcA, hL _ c a hca hcL⟩
    · rintro ⟨ha, y, hy, hLy⟩
      obtain ⟨b, hba, hby⟩ := AgreeBelow.exists_extend S.width a fun _ => y
      have hb : b S.width = y := hby 0
      have hbT : T.Holds b := (hT b).mpr ⟨hS a b hba.symm ha, hb ▸ hy⟩
      have hbL : L b (b S.width) := by
        rw [hb]
        exact hL y a b hba.symm hLy
      obtain ⟨c, hcb, hc⟩ := (hU.completes_iff b).mpr ⟨hbT, hbL⟩
      exact ⟨c, (hcb.mono (by omega)).trans hba, hc⟩

/-- A loop of extensions, each asking `P x` for its own item, asks all of them. The loop may fail;
`Inv` is what its state keeps. -/
theorem foldlM {σ ε α : Type*} (sys : σ → System K) (step : σ → α → Except ε σ) (n : Nat)
    (Inv : σ → Prop) (P : α → (Nat → K) → Prop)
    (hInv : ∀ s, Inv s → n ≤ (sys s).width ∧ ReadsBelow (sys s).width (sys s).Holds)
    (l : List α) (hP : ∀ x ∈ l, ReadsBelow n (P x))
    (hstep : ∀ s s' x, x ∈ l → Inv s → step s x = .ok s' →
      Inv s' ∧ Extends (sys s) (sys s') (P x))
    (s s' : σ) (hs : Inv s) (h : l.foldlM step s = .ok s') :
    Inv s' ∧ Extends (sys s) (sys s') fun a => ∀ x ∈ l, P x a := by
  induction l generalizing s with
  | nil =>
    obtain rfl : s = s' := Except.ok.inj h
    exact ⟨hs, (Extends.refl _ (hInv s hs).2).congr fun a _ => by simp⟩
  | cons x l ih =>
    rw [List.foldlM_cons] at h
    cases hx : step s x with
    | error e => rw [hx] at h; cases h
    | ok t =>
      rw [hx] at h
      obtain ⟨ht, hext⟩ := hstep s t x (by simp) hs hx
      obtain ⟨hs', hext'⟩ := ih (fun y hy => hP y (by simp [hy]))
        (fun s s' y hy => hstep s s' y (by simp [hy])) t ht h
      refine ⟨hs', (hext.trans hext' ?_).congr fun a _ => by simp⟩
      exact (ReadsBelow.forall_mem fun y hy => hP y (by simp [hy])).mono (hInv s hs).1

/-- A loop of extensions that cannot fail. -/
theorem foldl {σ α : Type*} (sys : σ → System K) (step : σ → α → σ) (n : Nat)
    (Inv : σ → Prop) (P : α → (Nat → K) → Prop)
    (hInv : ∀ s, Inv s → n ≤ (sys s).width ∧ ReadsBelow (sys s).width (sys s).Holds)
    (l : List α) (hP : ∀ x ∈ l, ReadsBelow n (P x))
    (hstep : ∀ s x, x ∈ l → Inv s → Inv (step s x) ∧ Extends (sys s) (sys (step s x)) (P x))
    (s : σ) (hs : Inv s) :
    Inv (l.foldl step s) ∧ Extends (sys s) (sys (l.foldl step s)) fun a => ∀ x ∈ l, P x a := by
  refine foldlM sys (fun s x => (.ok (step s x) : Except Unit σ)) n Inv P hInv l hP ?_ s _ hs ?_
  · intro s s' x hx hs h
    obtain rfl : step s x = s' := Except.ok.inj h
    exact hstep s x hx hs
  · exact List.foldlM_pure

end Extends

end System

end Linear
