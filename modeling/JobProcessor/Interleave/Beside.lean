import JobProcessor.Interleave.Pool

/-! Programs that only look. One runs beside a system that goes on as it likes, and each
of its actions is answered from the state that the system has then come to. -/

namespace Interleave

variable {World Op : Type} {Res : Op → Type} {Env Proc Out : Type}
  {S : Sys World Op Res Env Proc Out} {Look : Type} {Ans : Look → Type} {View : Type}
  {see : (o : Look) → View → World → Ans o} {ok : View → Prop} {α β : Type}
  {c c₁ c₂ : Config World Op Res Proc Out}

/-- From `c` to `c'` the program `p` has run beside `S` to its result. Action `o` is
answered with what `see o` makes of the world, under a choice of the outside that
satisfies `ok`. -/
inductive Beside (S : Sys World Op Res Env Proc Out) (see : (o : Look) → View → World → Ans o)
    (ok : View → Prop) :
    Config World Op Res Proc Out → Prog Look Ans α → Config World Op Res Proc Out → α → Prop where
  | pure {c c'} (a : α) (h : Leads S c c') : Beside S see ok c (.pure a) c' a
  | act {c c₁ c'} (o : Look) (k : Ans o → Prog Look Ans α) (v : View) {a : α} (h : Leads S c c₁)
      (hv : ok v) (hk : Beside S see ok c₁ (k (see o v c₁.shared.world)) c' a) :
      Beside S see ok c (.act o k) c' a

/-- The result of a program that finds the world as `w` throughout. -/
def Prog.answer (see : (o : Look) → View → World → Ans o) (v : View) (w : World) :
    Prog Look Ans α → α
  | .pure a => a
  | .act o k => (k (see o v w)).answer see v w

theorem Leads.trans (h₁ : Leads S c c₁) (h₂ : Leads S c₁ c₂) : Leads S c c₂ := by
  induction h₂ with
  | refl => exact h₁
  | step _ hs ih => exact ih.step hs

theorem Leads.reachable (h : Leads S c c₁) (hc : Reachable S c) : Reachable S c₁ := by
  induction h with
  | refl => exact hc
  | step _ hs ih => exact ih.step hs trivial

/-- The system comes to `d` on its way from `c` to `c'`. -/
def Between (S : Sys World Op Res Env Proc Out) (c d c' : Config World Op Res Proc Out) : Prop :=
  Leads S c d ∧ Leads S d c'

theorem Between.widen {d c₃ c₄ : Config World Op Res Proc Out} (h : Between S c₁ d c₂)
    (h₁ : Leads S c₃ c₁) (h₂ : Leads S c₂ c₄) : Between S c₃ d c₄ :=
  ⟨h₁.trans h.1, h.2.trans h₂⟩

namespace Beside

theorem leads {p : Prog Look Ans α} {a : α} (h : Beside S see ok c p c₁ a) : Leads S c c₁ := by
  induction h with
  | pure a h => exact h
  | act o k v h _ _ ih => exact h.trans ih

theorem of_bind {p : Prog Look Ans α} {f : α → Prog Look Ans β} {b : β}
    (h : Beside S see ok c (p >>= f) c₂ b) :
    ∃ c₁ a, Beside S see ok c p c₁ a ∧ Beside S see ok c₁ (f a) c₂ b := by
  induction p generalizing c with
  | pure a => exact ⟨c, a, .pure a .refl, h⟩
  | act o k ih =>
    cases h with
    | act _ _ v h hv hk =>
      obtain ⟨c₁, a, hp, hf⟩ := ih _ hk
      exact ⟨c₁, a, .act o k v h hv hp, hf⟩

theorem of_act {o : Look} {k : Ans o → Prog Look Ans α} {a : α}
    (h : Beside S see ok c (.act o k) c₂ a) :
    ∃ c₁ v, Leads S c c₁ ∧ ok v ∧ Beside S see ok c₁ (k (see o v c₁.shared.world)) c₂ a := by
  cases h with
  | act _ _ v h hv hk => exact ⟨_, v, h, hv, hk⟩

theorem still {v : View} (hv : ok v) (p : Prog Look Ans α) :
    Beside S see ok c p c (p.answer see v c.shared.world) := by
  induction p with
  | pure a => exact .pure a .refl
  | act o k ih => exact .act o k v .refl hv (ih _)

theorem of_pure {a a' : α} (h : Beside S see ok c (.pure a) c₁ a') : a' = a := by
  cases h
  rfl

end Beside

end Interleave
