import JobProcessor.Interleave.Pool

/-! Simulation between two systems: each move of the first is a move of the second or
none, and so every run of the first is a run of the second. -/

namespace Interleave

variable {World Op : Type} {Res : Op → Type} {Env Proc Out : Type}
  {World' Op' : Type} {Res' : Op' → Type} {Env' Proc' Out' : Type}
  {S : Sys World Op Res Env Proc Out} {T : Sys World' Op' Res' Env' Proc' Out'}

/-- `c'` is `c`, or one move further. -/
def AtMostOne (T : Sys World' Op' Res' Env' Proc' Out') (c c' : Config World' Op' Res' Proc' Out') :
    Prop :=
  c' = c ∨ ∃ ch ev, Interleave.step T c ch = some (ev, c')

theorem AtMostOne.reachable {c c' : Config World' Op' Res' Proc' Out'} (h : AtMostOne T c c')
    (hc : Reachable T c) : Reachable T c' := by
  rcases h with rfl | ⟨ch, ev, hs⟩
  · exact hc
  · exact hc.step hs trivial

theorem Run.simulated {ok : Shared World Op Res Proc Out → Event Op Res Proc Out → Prop}
    {R : Config World Op Res Proc Out → Config World' Op' Res' Proc' Out' → Prop}
    (h0 : R (.init S) (.init T))
    (hstep : ∀ C c ch ev C', R C c → Interleave.step S C ch = some (ev, C') → ok C.shared ev →
      ∃ c', AtMostOne T c c' ∧ R C' c')
    {C : Config World Op Res Proc Out} (h : Run S ok C) : ∃ c, Reachable T c ∧ R C c := by
  induction h with
  | init => exact ⟨_, .init, h0⟩
  | step _ hs ho ih =>
    obtain ⟨c, hc, hR⟩ := ih
    obtain ⟨c', hmove, hR'⟩ := hstep _ c _ _ _ hR hs ho
    exact ⟨c', hmove.reachable hc, hR'⟩

end Interleave
