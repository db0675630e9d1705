import Mathlib.Logic.Function.Basic

/-! Programs as trees of atomic actions. A program is either finished or about
to issue one action, and how it goes on is a function of the reply. Nothing is
said here about what an action does: the interleaved runs of a pool of
programs are in `Pool`. -/

namespace Interleave

/-- A program over the actions `Op`, whose action `o` is answered in `Res o`. -/
inductive Prog (Op : Type) (Res : Op → Type) (α : Type) : Type where
  | pure (a : α)
  | act (o : Op) (k : Res o → Prog Op Res α)

variable {Op : Type} {Res : Op → Type} {α β : Type}

namespace Prog

def bind (p : Prog Op Res α) (f : α → Prog Op Res β) : Prog Op Res β :=
  match p with
  | .pure a => f a
  | .act o k => .act o fun r => (k r).bind f

instance : Monad (Prog Op Res) where
  pure := Prog.pure
  bind := Prog.bind

/-- The program that issues one action and returns its reply. -/
def op (o : Op) : Prog Op Res (Res o) := .act o .pure

@[simp] theorem act_bind (o : Op) (k : Res o → Prog Op Res α) (f : α → Prog Op Res β) :
    (Prog.act o k >>= f) = .act o fun r => k r >>= f := rfl

@[simp] theorem op_bind (o : Op) (f : Res o → Prog Op Res β) :
    (Prog.op o >>= f) = .act o f := rfl

@[simp] theorem mpure_eq (a : α) : (Pure.pure a : Prog Op Res α) = .pure a := rfl

theorem id_map (p : Prog Op Res α) : id <$> p = p := by
  induction p with
  | pure a => rfl
  | act o k ih => exact congrArg (Prog.act o) (funext ih)

theorem bind_bind {γ : Type} (p : Prog Op Res α) (f : α → Prog Op Res β)
    (g : β → Prog Op Res γ) : (p >>= f >>= g) = (p >>= fun a => f a >>= g) := by
  induction p with
  | pure a => rfl
  | act o k ih => exact congrArg (Prog.act o) (funext ih)

instance : LawfulMonad (Prog Op Res) := LawfulMonad.mk' _ id_map (fun _ _ => rfl) bind_bind

/-! ### The history a program builds up -/

/-- One issued action with its reply. -/
abbrev Reply (Op : Type) (Res : Op → Type) := (o : Op) × Res o

/-- Along every branch whose replies satisfy `V`, each action `p` issues stands in
the relation `P` to the replies the program has had so far, newest first and
starting from `h`, and what it returns stands in the relation `Q` to all of them. -/
def Emits (V : (o : Op) → Res o → Prop) (P : List (Reply Op Res) → Op → Prop)
    (Q : List (Reply Op Res) → α → Prop) : List (Reply Op Res) → Prog Op Res α → Prop
  | h, .pure a => Q h a
  | h, .act o k => P h o ∧ ∀ r, V o r → Emits V P Q (⟨o, r⟩ :: h) (k r)

variable {V : (o : Op) → Res o → Prop} {P P' : List (Reply Op Res) → Op → Prop}
  {Q Q' : List (Reply Op Res) → α → Prop} {h : List (Reply Op Res)}

@[simp] theorem emits_pure (a : α) : Emits V P Q h (.pure a) ↔ Q h a := Iff.rfl

@[simp] theorem emits_act (o : Op) (k : Res o → Prog Op Res α) :
    Emits V P Q h (.act o k) ↔ P h o ∧ ∀ r, V o r → Emits V P Q (⟨o, r⟩ :: h) (k r) := Iff.rfl

theorem Emits.bind {R : List (Reply Op Res) → β → Prop} {p : Prog Op Res α}
    {f : α → Prog Op Res β} (hp : Emits V P Q h p)
    (hf : ∀ h a, Q h a → Emits V P R h (f a)) : Emits V P R h (p >>= f) := by
  induction p generalizing h with
  | pure a => exact hf h a hp
  | act o k ih => exact ⟨hp.1, fun r hr => ih r (hp.2 r hr)⟩

theorem Emits.mono {p : Prog Op Res α} (hp : Emits V P Q h p)
    (hP : ∀ h o, P h o → P' h o) (hQ : ∀ h a, Q h a → Q' h a) : Emits V P' Q' h p := by
  induction p generalizing h with
  | pure a => exact hQ h a hp
  | act o k ih => exact ⟨hP _ _ hp.1, fun r hr => ih r (hp.2 r hr)⟩

theorem Emits.and {p : Prog Op Res α} (hp : Emits V P Q h p) (hp' : Emits V P' Q' h p) :
    Emits V (fun h o => P h o ∧ P' h o) (fun h a => Q h a ∧ Q' h a) h p := by
  induction p generalizing h with
  | pure a => exact ⟨hp, hp'⟩
  | act o k ih => exact ⟨⟨hp.1, hp'.1⟩, fun r hr => ih r (hp.2 r hr) (hp'.2 r hr)⟩

theorem emits_trivial (p : Prog Op Res α) (h : List (Reply Op Res)) :
    Emits (fun _ _ => True) (fun _ _ => True) (fun _ _ => True) h p := by
  induction p generalizing h with
  | pure a => trivial
  | act o k ih => exact ⟨trivial, fun r _ => ih r _⟩

theorem emits_any (p : Prog Op Res α) (h : List (Reply Op Res)) :
    Emits V (fun _ _ => True) (fun _ _ => True) h p := by
  induction p generalizing h with
  | pure a => trivial
  | act o k ih => exact ⟨trivial, fun r _ => ih r _⟩

/-- Every action of `p` is one of `A`. -/
abbrev Uses (V : (o : Op) → Res o → Prop) (A : Op → Prop) (p : Prog Op Res α) : Prop :=
  Emits V (fun _ o => A o) (fun _ _ => True) [] p

/-- A fact that does not look at the history holds after any history. -/
theorem emits_const {A : Op → Prop} {R : α → Prop} {p : Prog Op Res α}
    (g g' : List (Reply Op Res)) :
    Emits V (fun _ o => A o) (fun _ a => R a) g p ↔
      Emits V (fun _ o => A o) (fun _ a => R a) g' p := by
  induction p generalizing g g' with
  | pure a => exact Iff.rfl
  | act o k ih =>
    simp only [emits_act]
    exact and_congr_right fun _ => forall_congr' fun r => imp_congr_right fun _ => ih r _ _

theorem uses_iff {A : Op → Prop} {p : Prog Op Res α} (g : List (Reply Op Res)) :
    Emits V (fun _ o => A o) (fun _ _ => True) g p ↔ Uses V A p := emits_const g []

theorem Uses.act {A : Op → Prop} {o : Op} {k : Res o → Prog Op Res α} (ho : A o)
    (hk : ∀ r, V o r → Uses V A (k r)) : Uses V A (.act o k) :=
  ⟨ho, fun r hr => (uses_iff _).2 (hk r hr)⟩

theorem Uses.bind {A : Op → Prop} {p : Prog Op Res α} {f : α → Prog Op Res β}
    (hp : Uses V A p) (hf : ∀ a, Uses V A (f a)) : Uses V A (p >>= f) :=
  Emits.bind hp fun h a _ => (uses_iff h).2 (hf a)

/-- A fact about the history that every action of `A` keeps holds throughout a
program that uses only `A`. -/
theorem Emits.of_uses {A : Op → Prop} {I : List (Reply Op Res) → Prop} {p : Prog Op Res α}
    (hp : Uses V A p) (hP : ∀ h o, I h → A o → P h o)
    (hI : ∀ h o r, V o r → I h → A o → I (⟨o, r⟩ :: h)) (h0 : I h) :
    Emits V P (fun g _ => I g) h p := by
  induction p generalizing h with
  | pure a => exact h0
  | act o k ih =>
    have hk : ∀ r, V o r → Uses V A (k r) := fun r hr => (uses_iff _).1 (hp.2 r hr)
    exact ⟨hP h o h0 hp.1, fun r hr => ih r (hk r hr) (hI h o r hr h0 hp.1)⟩

/-! ### A program that runs alone -/

section Alone

variable {W Env : Type} {exec : (o : Op) → Env → W → Option (W × Res o)}

/-- The world and the result after running a program with nothing in between; `none`
when an action blocks. The `i`-th action is performed under `env i`. -/
def eval (exec : (o : Op) → Env → W → Option (W × Res o)) :
    Prog Op Res α → (Nat → Env) → W → Option (W × α)
  | .pure a, _, w => some (w, a)
  | .act o k, env, w =>
    match exec o (env 0) w with
    | none => none
    | some (w', r) => eval exec (k r) (fun i => env (i + 1)) w'

/-- Two worlds in a relation that lets every action go through in both, with one
reply, take a program to one result and stay in that relation. -/
theorem Emits.eval_pair {R : List (Reply Op Res) → W → W → Prop} {p : Prog Op Res α}
    (hp : Emits V P Q h p)
    (hstep : ∀ h o e w₁ w₂, P h o → R h w₁ w₂ → ∃ w₁' w₂' r, exec o e w₁ = some (w₁', r) ∧
      exec o e w₂ = some (w₂', r) ∧ V o r ∧ R (⟨o, r⟩ :: h) w₁' w₂')
    (env : Nat → Env) {w₁ w₂ : W} (h0 : R h w₁ w₂) :
    ∃ g w₁' w₂' a, p.eval exec env w₁ = some (w₁', a) ∧ p.eval exec env w₂ = some (w₂', a) ∧
      Q g a ∧ R g w₁' w₂' := by
  induction p generalizing h env w₁ w₂ with
  | pure a => exact ⟨h, w₁, w₂, a, rfl, rfl, hp, h0⟩
  | act o k ih =>
    obtain ⟨w₁', w₂', r, h₁, h₂, hV, hR⟩ := hstep h o (env 0) w₁ w₂ hp.1 h0
    simp only [eval, h₁, h₂]
    exact ih r (hp.2 r hV) (fun i => env (i + 1)) hR

/-- An invariant that lets every action go through and is kept by it. -/
theorem Emits.eval_inv {I : List (Reply Op Res) → W → Prop} {p : Prog Op Res α}
    (hp : Emits V P Q h p)
    (hstep : ∀ h o e w, P h o → I h w →
      ∃ w' r, exec o e w = some (w', r) ∧ V o r ∧ I (⟨o, r⟩ :: h) w')
    (env : Nat → Env) {w : W} (h0 : I h w) :
    ∃ g w' a, p.eval exec env w = some (w', a) ∧ Q g a ∧ I g w' := by
  have hpair := hp.eval_pair (R := fun h w₁ w₂ => w₂ = w₁ ∧ I h w₁)
    (by
      rintro h o e w₁ w₂ hP ⟨rfl, hI⟩
      obtain ⟨w', r, he, hV, hI'⟩ := hstep h o e _ hP hI
      exact ⟨w', w', r, he, he, hV, rfl, hI'⟩) env ⟨rfl, h0⟩
  obtain ⟨g, w', -, a, he, -, hQ, -, hI⟩ := hpair
  exact ⟨g, w', a, he, hQ, hI⟩

end Alone

end Prog

end Interleave
