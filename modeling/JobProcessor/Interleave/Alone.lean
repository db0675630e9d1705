import JobProcessor.Interleave.Prog

/-! Total correctness of one program that runs with nothing in between: every
action goes through, and what is left behind satisfies a postcondition on the
world, the result and the replies. -/

namespace Interleave.Prog

variable {Op : Type} {Res : Op → Type} {α β W Env : Type}
  {exec : (o : Op) → Env → W → Option (W × Res o)} {E : Env → Prop}

/-- Run a program that has had the replies `h`, the `i`-th action under `env i`: the
world it leaves, its result and all replies, newest first. `none` when an action
blocks. -/
def trace (exec : (o : Op) → Env → W → Option (W × Res o)) :
    Prog Op Res α → (Nat → Env) → W → List (Reply Op Res) → Option (W × α × List (Reply Op Res))
  | .pure a, _, w, h => some (w, a, h)
  | .act o k, env, w, h =>
    match exec o (env 0) w with
    | none => none
    | some (w', r) => trace exec (k r) (fun i => env (i + 1)) w' (⟨o, r⟩ :: h)

theorem trace_act {o : Op} {k : Res o → Prog Op Res α} {env : Nat → Env} {w w' : W} {r : Res o}
    {h : List (Reply Op Res)} (hx : exec o (env 0) w = some (w', r)) :
    (Prog.act o k).trace exec env w h =
      (k r).trace exec (fun i => env (i + 1)) w' (⟨o, r⟩ :: h) := by
  simp only [trace, hx]

theorem exists_trace_act {o : Op} {k : Res o → Prog Op Res α} {e : Env} {w w' : W} {r : Res o}
    {h : List (Reply Op Res)} (hx : exec o e w = some (w', r))
    {P : W × α × List (Reply Op Res) → Prop}
    (hk : ∃ env x, (k r).trace exec env w' (⟨o, r⟩ :: h) = some x ∧ P x) :
    ∃ env x, (Prog.act o k).trace exec env w h = some x ∧ P x := by
  obtain ⟨env, x, ht, hP⟩ := hk
  refine ⟨fun i => Nat.casesOn i e env, x, ?_, hP⟩
  rw [trace_act hx]
  exact ht

theorem trace_bind {env : Nat → Env} {w w' : W} {p : Prog Op Res α} {f : α → Prog Op Res β}
    {a : α} {b : β} {h g : List (Reply Op Res)} (ht : p.trace exec env w h = some (w', a, g))
    (hf : f a = .pure b) : (p >>= f).trace exec env w h = some (w', b, g) := by
  induction p generalizing env w h with
  | pure a' =>
    simp only [trace, Option.some.injEq, Prod.mk.injEq] at ht
    obtain ⟨rfl, rfl, rfl⟩ := ht
    change (f a').trace exec env w h = _
    rw [hf]
    rfl
  | act o k ih =>
    simp only [trace] at ht
    change (Prog.act o fun r => k r >>= f).trace exec env w h = _
    simp only [trace]
    split at ht
    · cases ht
    · exact ih _ ht

/-- Whatever the outside decides within `E`, the program ends and `Q` holds then. -/
def Ends (exec : (o : Op) → Env → W → Option (W × Res o)) (E : Env → Prop)
    (Q : W → α → List (Reply Op Res) → Prop) : Prog Op Res α → W → List (Reply Op Res) → Prop
  | .pure a, w, h => Q w a h
  | .act o k, w, h => ∀ e, E e → ∃ w' r, exec o e w = some (w', r) ∧
    Ends exec E Q (k r) w' (⟨o, r⟩ :: h)

variable {Q Q' : W → α → List (Reply Op Res) → Prop} {p : Prog Op Res α} {w : W}
  {h : List (Reply Op Res)}

theorem Ends.mono (hp : Ends exec E Q p w h) (hQ : ∀ w a h, Q w a h → Q' w a h) :
    Ends exec E Q' p w h := by
  induction p generalizing w h with
  | pure a => exact hQ w a h hp
  | act o k ih =>
    intro e he
    obtain ⟨w', r, hx, hk⟩ := hp e he
    exact ⟨w', r, hx, ih r hk⟩

theorem Ends.weaken {E' : Env → Prop} (hp : Ends exec E Q p w h) (hE : ∀ e, E' e → E e) :
    Ends exec E' Q p w h := by
  induction p generalizing w h with
  | pure a => exact hp
  | act o k ih =>
    intro e he
    obtain ⟨w', r, hx, hk⟩ := hp e (hE e he)
    exact ⟨w', r, hx, ih r hk⟩

theorem Ends.bind {R : W → β → List (Reply Op Res) → Prop} {f : α → Prog Op Res β}
    (hp : Ends exec E Q p w h) (hf : ∀ w a h, Q w a h → Ends exec E R (f a) w h) :
    Ends exec E R (p >>= f) w h := by
  induction p generalizing w h with
  | pure a => exact hf w a h hp
  | act o k ih =>
    intro e he
    obtain ⟨w', r, hx, hk⟩ := hp e he
    exact ⟨w', r, hx, ih r hk⟩

theorem Ends.and (hp : Ends exec E Q p w h) (hp' : Ends exec E Q' p w h) :
    Ends exec E (fun w a g => Q w a g ∧ Q' w a g) p w h := by
  induction p generalizing w h with
  | pure a => exact ⟨hp, hp'⟩
  | act o k ih =>
    intro e he
    obtain ⟨w₁, r, hx, hk⟩ := hp e he
    obtain ⟨w₂, r', hx', hk'⟩ := hp' e he
    rw [hx, Option.some.injEq, Prod.mk.injEq] at hx'
    obtain ⟨rfl, rfl⟩ := hx'
    exact ⟨w₁, r, hx, ih r hk hk'⟩

theorem Ends.trace (hp : Ends exec E Q p w h) (env : Nat → Env) (henv : ∀ i, E (env i)) :
    ∃ w' a g, p.trace exec env w h = some (w', a, g) ∧ Q w' a g := by
  induction p generalizing w h env with
  | pure a => exact ⟨w, a, h, rfl, hp⟩
  | act o k ih =>
    obtain ⟨w', r, hx, hk⟩ := hp (env 0) (henv 0)
    obtain ⟨w'', a, g, ht, hQ⟩ := ih r hk (fun i => env (i + 1)) fun i => henv (i + 1)
    exact ⟨w'', a, g, (trace_act hx).trans ht, hQ⟩

/-- The same under a condition `F` of its own on the first decision. -/
def EndsFrom (exec : (o : Op) → Env → W → Option (W × Res o)) (F E : Env → Prop)
    (Q : W → α → List (Reply Op Res) → Prop) : Prog Op Res α → W → List (Reply Op Res) → Prop
  | .pure a, w, h => Q w a h
  | .act o k, w, h => ∀ e, F e → ∃ w' r, exec o e w = some (w', r) ∧
    Ends exec E Q (k r) w' (⟨o, r⟩ :: h)

theorem Ends.endsFrom {F : Env → Prop} (hp : Ends exec (fun e => F e ∨ E e) Q p w h) :
    EndsFrom exec F E Q p w h := by
  cases p with
  | pure a => exact hp
  | act o k =>
    intro e he
    obtain ⟨w', r, hx, hk⟩ := hp e (.inl he)
    exact ⟨w', r, hx, hk.weaken fun _ => .inr⟩

theorem EndsFrom.ends {F : Env → Prop} (hp : EndsFrom exec F E Q p w h) (hF : ∀ e, E e → F e) :
    Ends exec E Q p w h := by
  cases p with
  | pure a => exact hp
  | act o k => exact fun e he => hp e (hF e he)

theorem EndsFrom.weaken {F F' : Env → Prop} (hp : EndsFrom exec F E Q p w h)
    (hF : ∀ e, F' e → F e) : EndsFrom exec F' E Q p w h := by
  cases p with
  | pure a => exact hp
  | act o k => exact fun e he => hp e (hF e he)

theorem EndsFrom.trace {F : Env → Prop} (hp : EndsFrom exec F E Q p w h) (env : Nat → Env)
    (h0 : F (env 0)) (henv : ∀ i, E (env (i + 1))) :
    ∃ w' a g, p.trace exec env w h = some (w', a, g) ∧ Q w' a g := by
  cases p with
  | pure a => exact ⟨w, a, h, rfl, hp⟩
  | act o k =>
    obtain ⟨w', r, hx, hk⟩ := hp (env 0) h0
    obtain ⟨w'', a, g, ht, hQ⟩ := hk.trace (fun i => env (i + 1)) henv
    exact ⟨w'', a, g, (trace_act hx).trans ht, hQ⟩

theorem EndsFrom.bind {F : Env → Prop} {R : W → β → List (Reply Op Res) → Prop}
    {f : α → Prog Op Res β} (hp : EndsFrom exec F E Q p w h)
    (hf : ∀ w a h, Q w a h → ∃ b, f a = .pure b ∧ R w b h) :
    EndsFrom exec F E R (p >>= f) w h := by
  cases p with
  | pure a =>
    obtain ⟨b, hb, hR⟩ := hf w a h hp
    change EndsFrom exec F E R (f a) w h
    rw [hb]
    exact hR
  | act o k =>
    intro e he
    obtain ⟨w', r, hx, hk⟩ := hp e he
    refine ⟨w', r, hx, hk.bind fun w a h hQ => ?_⟩
    obtain ⟨b, hb, hR⟩ := hf w a h hQ
    rw [hb]
    exact hR

/-- Whether the first decision is within `F` or not. -/
theorem EndsFrom.or {F : Env → Prop} (hp : EndsFrom exec F E Q p w h)
    (hp' : EndsFrom exec (fun e => ¬ F e) E Q' p w h) :
    Ends exec E (fun w a g => Q w a g ∨ Q' w a g) p w h := by
  cases p with
  | pure a => exact .inl hp
  | act o k =>
    intro e _
    by_cases hF : F e
    · obtain ⟨w', r, hx, hk⟩ := hp e hF
      exact ⟨w', r, hx, hk.mono fun _ _ _ => .inl⟩
    · obtain ⟨w', r, hx, hk⟩ := hp' e hF
      exact ⟨w', r, hx, hk.mono fun _ _ _ => .inr⟩

theorem Ends.traced (hp : Ends exec E Q p w h) (hE : ∃ e, E e) :
    Ends exec E (fun w' a g => Q w' a g ∧
      ∃ env : Nat → Env, p.trace exec env w h = some (w', a, g)) p w h := by
  induction p generalizing w h with
  | pure a =>
    obtain ⟨e, -⟩ := hE
    exact ⟨hp, fun _ => e, rfl⟩
  | act o k ih =>
    intro e he
    obtain ⟨w', r, hx, hk⟩ := hp e he
    refine ⟨w', r, hx, (ih r hk).mono ?_⟩
    rintro w'' a g ⟨hQ, env, ht⟩
    refine ⟨hQ, fun i => Nat.casesOn i e env, ?_⟩
    rw [trace_act hx]
    exact ht

theorem Ends.suffix (hp : Ends exec E Q p w h) :
    Ends exec E (fun w a g => Q w a g ∧ h <:+ g) p w h := by
  induction p generalizing w h with
  | pure a => exact ⟨hp, List.suffix_refl h⟩
  | act o k ih =>
    intro e he
    obtain ⟨w', r, hx, hk⟩ := hp e he
    refine ⟨w', r, hx, (ih r hk).mono ?_⟩
    rintro w'' a g ⟨hQ, hs⟩
    exact ⟨hQ, (List.suffix_cons _ h).trans hs⟩

theorem Ends.keeps {γ : Type} {f : W → γ} (hp : Ends exec E Q p w h)
    (hf : ∀ o e w w' r, E e → exec o e w = some (w', r) → f w' = f w) :
    Ends exec E (fun w' a g => Q w' a g ∧ f w' = f w) p w h := by
  induction p generalizing w h with
  | pure a => exact ⟨hp, rfl⟩
  | act o k ih =>
    intro e he
    obtain ⟨w', r, hx, hk⟩ := hp e he
    refine ⟨w', r, hx, (ih r hk).mono ?_⟩
    rintro w'' a g ⟨hQ, hw⟩
    exact ⟨hQ, hw.trans (hf o e w w' r he hx)⟩

/-- A program whose actions are all allowed by `P`, in worlds where an allowed action
goes through and keeps `I`. -/
theorem Emits.ends {V : (o : Op) → Res o → Prop} {P : List (Reply Op Res) → Op → Prop}
    {R : List (Reply Op Res) → α → Prop} {I : W → List (Reply Op Res) → Prop}
    (hp : Emits V P R h p)
    (hstep : ∀ h o e w, E e → P h o → I w h →
      ∃ w' r, exec o e w = some (w', r) ∧ V o r ∧ I w' (⟨o, r⟩ :: h))
    (h0 : I w h) : Ends exec E (fun w a h => R h a ∧ I w h) p w h := by
  induction p generalizing w h with
  | pure a => exact ⟨hp, h0⟩
  | act o k ih =>
    intro e he
    obtain ⟨w', r, hx, hV, hI⟩ := hstep h o e w he hp.1 h0
    exact ⟨w', r, hx, ih r (hp.2 r hV) hI⟩

/-! ### A run that is cut off -/

/-- The world when the process stops after at most `n` actions. -/
def cut (exec : (o : Op) → Env → W → Option (W × Res o)) :
    Nat → Prog Op Res α → (Nat → Env) → W → Option W
  | 0, _, _, w => some w
  | _ + 1, .pure _, _, w => some w
  | n + 1, .act o k, env, w =>
    match exec o (env 0) w with
    | none => none
    | some (w', r) => cut exec n (k r) (fun i => env (i + 1)) w'

/-- The program ends and `Q` holds then; `I` holds now and after each action. -/
def Runs (exec : (o : Op) → Env → W → Option (W × Res o)) (E : Env → Prop) (I : W → Prop)
    (Q : W → α → Prop) : Prog Op Res α → W → Prop
  | .pure a, w => I w ∧ Q w a
  | .act o k, w => I w ∧ ∀ e, E e → ∃ w' r, exec o e w = some (w', r) ∧ Runs exec E I Q (k r) w'

variable {I : W → Prop} {S S' : W → α → Prop}

theorem Runs.mono (hp : Runs exec E I S p w) (hS : ∀ w a, S w a → S' w a) :
    Runs exec E I S' p w := by
  induction p generalizing w with
  | pure a => exact ⟨hp.1, hS w a hp.2⟩
  | act o k ih =>
    refine ⟨hp.1, fun e he => ?_⟩
    obtain ⟨w', r, hx, hk⟩ := hp.2 e he
    exact ⟨w', r, hx, ih r hk⟩

theorem Runs.bind {R : W → β → Prop} {f : α → Prog Op Res β} (hp : Runs exec E I S p w)
    (hf : ∀ w a, S w a → Runs exec E I R (f a) w) : Runs exec E I R (p >>= f) w := by
  induction p generalizing w with
  | pure a => exact hf w a hp.2
  | act o k ih =>
    refine ⟨hp.1, fun e he => ?_⟩
    obtain ⟨w', r, hx, hk⟩ := hp.2 e he
    exact ⟨w', r, hx, ih r hk⟩

theorem Runs.eval (hp : Runs exec E I S p w) (env : Nat → Env) (henv : ∀ i, E (env i)) :
    ∃ w' a, p.eval exec env w = some (w', a) ∧ S w' a := by
  induction p generalizing w env with
  | pure a => exact ⟨w, a, rfl, hp.2⟩
  | act o k ih =>
    obtain ⟨w', r, hx, hk⟩ := hp.2 (env 0) (henv 0)
    simp only [Prog.eval, hx]
    exact ih r hk (fun i => env (i + 1)) fun i => henv (i + 1)

theorem Runs.cut (hp : Runs exec E I S p w) (env : Nat → Env) (henv : ∀ i, E (env i)) (n : Nat) :
    ∃ w', p.cut exec n env w = some w' ∧ I w' := by
  induction n generalizing p w env with
  | zero =>
    refine ⟨w, rfl, ?_⟩
    cases p with
    | pure a => exact hp.1
    | act o k => exact hp.1
  | succ n ih =>
    cases p with
    | pure a => exact ⟨w, rfl, hp.1⟩
    | act o k =>
      obtain ⟨w', r, hx, hk⟩ := hp.2 (env 0) (henv 0)
      simp only [Prog.cut, hx]
      exact ih hk (fun i => env (i + 1)) fun i => henv (i + 1)

end Interleave.Prog
