/-
  Rddl/Proofs/Completion.lean
  ===========================
  **When a computation comes to its end.**

  Build steps and reports keep a state and may fail.  Whether they do does not depend on the
  state, and for a sequence of steps it is a matter of the single steps: `CompletesIff x P`
  says that `x` comes to its end exactly if `P` holds.
-/
import Rddl.Model.Tables
import Rddl.Report

namespace Rddl

variable {σ α β γ : Type}

theorem exists_ok_iff {x : EStateM Fault σ Unit} {s : σ} :
    (∃ s', x s = .ok () s') ↔ ∃ a s', x s = .ok a s' :=
  ⟨fun ⟨s', h⟩ => ⟨(), s', h⟩, fun ⟨_, s', h⟩ => ⟨s', h⟩⟩

/-- A computation comes to its end exactly under a condition, whatever the state. -/
def CompletesIff (x : EStateM Fault σ α) (P : Prop) : Prop :=
  ∀ s, (∃ a s', x s = .ok a s') ↔ P

namespace CompletesIff

variable {x : EStateM Fault σ α} {f : α → EStateM Fault σ β} {P Q : Prop}

theorem congr (h : CompletesIff x P) (hPQ : P ↔ Q) : CompletesIff x Q :=
  fun s => (h s).trans hPQ

theorem pure (a : α) : CompletesIff (Pure.pure a : EStateM Fault σ α) True :=
  fun s => iff_true_intro ⟨a, s, rfl⟩

theorem modify (g : σ → σ) : CompletesIff (modify g : EStateM Fault σ PUnit) True :=
  fun s => iff_true_intro ⟨(), g s, rfl⟩

theorem throw (cause : Fault) : CompletesIff (throw cause : EStateM Fault σ α) False := by
  intro s
  refine iff_false_intro ?_
  rintro ⟨a, s', h⟩
  cases h

theorem bind (hx : CompletesIff x P) (hf : ∀ a, CompletesIff (f a) Q) :
    CompletesIff (x >>= f) (P ∧ Q) := by
  intro s
  rw [← hx s]
  have hrun : (x >>= f) s = EStateM.bind x f s := rfl
  cases hxs : x s with
  | ok a s' =>
    rw [hrun, EStateM.bind, hxs]
    simpa using hf a s'
  | error cause s' =>
    rw [hrun, EStateM.bind, hxs]
    simp

/-- What always comes to its end does not matter. -/
theorem after (hx : CompletesIff x True) (hf : ∀ a, CompletesIff (f a) Q) :
    CompletesIff (x >>= f) Q :=
  (hx.bind hf).congr (Iff.of_eq (true_and Q))

theorem before (hx : CompletesIff x P) (hf : ∀ a, CompletesIff (f a) True) :
    CompletesIff (x >>= f) P :=
  (hx.bind hf).congr (Iff.of_eq (and_true P))

theorem ite {y : EStateM Fault σ α} {c : Prop} [Decidable c] (hx : c → CompletesIff x P)
    (hy : ¬ c → CompletesIff y P) : CompletesIff (if c then x else y) P := by
  split
  · next hc => exact hx hc
  · next hc => exact hy hc

/-- A loop comes to its end if all its steps do. -/
theorem forM {xs : List γ} {step : γ → EStateM Fault σ PUnit} {P : γ → Prop}
    (h : ∀ x ∈ xs, CompletesIff (step x) (P x)) :
    CompletesIff (xs.forM step) (∀ x ∈ xs, P x) := by
  induction xs with
  | nil => exact (pure _).congr (by simp)
  | cons x xs ih =>
    refine ((h x List.mem_cons_self).bind fun _ =>
      ih fun y hy => h y (List.mem_cons_of_mem x hy)).congr ?_
    rw [List.forall_mem_cons]

theorem forM_of_forall {xs : List γ} {step : γ → EStateM Fault σ PUnit}
    (h : ∀ x ∈ xs, CompletesIff (step x) True) : CompletesIff (xs.forM step) True :=
  (forM h).congr (by simp)

end CompletesIff

/-- Where a loop fails, one of its steps has failed. -/
theorem exists_error_of_forM {xs : List γ} {step : γ → EStateM Fault σ PUnit} {s s' : σ}
    {cause : Fault} (h : (xs.forM step) s = .error cause s') :
    ∃ x ∈ xs, ∃ s₁ s₂, step x s₁ = .error cause s₂ := by
  induction xs generalizing s with
  | nil => cases h
  | cons x xs ih =>
    have hrun : ((x :: xs).forM step) s = EStateM.bind (step x) (fun _ => xs.forM step) s := rfl
    rw [hrun, EStateM.bind] at h
    cases hx : step x s with
    | ok u s₁ =>
      rw [hx] at h
      obtain ⟨y, hy, hfail⟩ := ih h
      exact ⟨y, List.mem_cons_of_mem x hy, hfail⟩
    | error cause' s₁ =>
      rw [hx] at h
      cases h
      exact ⟨x, List.mem_cons_self, s, _, hx⟩

section Lift

variable {r : Except Fault α} {P : α → Prop}

theorem Build.completesIff_lift_bind {f : α → Build β} (hf : ∀ a, CompletesIff (f a) (P a)) :
    CompletesIff (Build.lift r >>= f) (∃ a, r = .ok a ∧ P a) := by
  cases r with
  | ok a => exact (hf a).congr (by simp)
  | error cause => exact (CompletesIff.throw cause).congr (by simp)

theorem Report.completesIff_lift_bind {f : α → Report β} {Q : Prop}
    (hf : ∀ a, r = .ok a → CompletesIff (f a) Q) :
    CompletesIff (Report.lift r >>= f) ((∃ a, r = .ok a) ∧ Q) := by
  cases r with
  | ok a => exact (hf a rfl).congr (by simp)
  | error cause => exact (CompletesIff.throw cause).congr (by simp)

theorem Report.completesIff_before_lift {f : α → Report β} (hf : ∀ a, CompletesIff (f a) True) :
    CompletesIff (Report.lift r >>= f) (∃ a, r = .ok a) :=
  (Report.completesIff_lift_bind fun a _ => hf a).congr (Iff.of_eq (and_true _))

theorem Report.completesIff_after_lift {f : α → Report β} {Q : Prop} (hr : ∃ a, r = .ok a)
    (hf : ∀ a, r = .ok a → CompletesIff (f a) Q) : CompletesIff (Report.lift r >>= f) Q :=
  (Report.completesIff_lift_bind hf).congr (and_iff_right hr)

end Lift

end Rddl
