import JobProcessor.Interleave.Prog

/-! One program among others: before each of its actions the others may take any
number of theirs. What happened is a list of moments, newest first. -/

namespace Interleave

/-- An action that went through: whether it is the program's own, the reply and the
world it left. -/
structure Moment (Op : Type) (Res : Op → Type) (W : Type) where
  mine : Bool
  op : Op
  reply : Res op
  after : W

namespace Prog

variable {Op : Type} {Res : Op → Type} {α β W Env : Type}
  {exec : (o : Op) → Env → W → Option (W × Res o)} {O : Op → Prop}

/-- The others act in turn; one that blocks is passed over. -/
def others (exec : (o : Op) → Env → W → Option (W × Res o)) :
    List (Op × Env) → W → List (Moment Op Res W) → W × List (Moment Op Res W)
  | [], w, g => (w, g)
  | (o, e) :: os, w, g =>
    match exec o e w with
    | none => others exec os w g
    | some (w', r) => others exec os w' (⟨false, o, r, w'⟩ :: g)

/-- Run a program among others: before its `i`-th action they take those of
`(script i).1`, and the action itself is performed under `(script i).2`. `none`
when an action of its own blocks. -/
def among (exec : (o : Op) → Env → W → Option (W × Res o)) :
    Prog Op Res α → (Nat → List (Op × Env) × Env) → W → List (Moment Op Res W) →
      Option (W × α × List (Moment Op Res W))
  | .pure a, _, w, g => some (w, a, g)
  | .act o k, script, w, g =>
    let s := others exec (script 0).1 w g
    match exec o (script 0).2 s.1 with
    | none => none
    | some (w', r) => among exec (k r) (fun i => script (i + 1)) w' (⟨true, o, r, w'⟩ :: s.2)

theorem others_inv {I : W → List (Moment Op Res W) → Prop} {os : List (Op × Env)} {w : W}
    {g : List (Moment Op Res W)} (hO : ∀ x ∈ os, O x.1)
    (hstep : ∀ o e w w' r g, O o → exec o e w = some (w', r) → I w g →
      I w' (⟨false, o, r, w'⟩ :: g))
    (h0 : I w g) : I (others exec os w g).1 (others exec os w g).2 := by
  induction os generalizing w g with
  | nil => exact h0
  | cons x os ih =>
    obtain ⟨o, e⟩ := x
    have hos : ∀ x ∈ os, O x.1 := fun x hx => hO x (List.mem_cons_of_mem _ hx)
    simp only [others]
    split
    · exact ih hos h0
    · rename_i w' r hx
      exact ih hos (hstep o e w w' r g (hO _ List.mem_cons_self) hx h0)

/-- Whatever the others do within `O`, the program ends and `Q` holds then. -/
def Amid (exec : (o : Op) → Env → W → Option (W × Res o)) (O : Op → Prop)
    (Q : W → α → List (Moment Op Res W) → Prop) :
    Prog Op Res α → W → List (Moment Op Res W) → Prop
  | .pure a, w, g => Q w a g
  | .act o k, w, g => ∀ (os : List (Op × Env)) (e : Env), (∀ x ∈ os, O x.1) →
    ∃ w' r, exec o e (others exec os w g).1 = some (w', r) ∧
      Amid exec O Q (k r) w' (⟨true, o, r, w'⟩ :: (others exec os w g).2)

variable {Q Q' : W → α → List (Moment Op Res W) → Prop} {p : Prog Op Res α} {w : W}
  {g : List (Moment Op Res W)}

theorem Amid.mono (hp : Amid exec O Q p w g) (hQ : ∀ w a g, Q w a g → Q' w a g) :
    Amid exec O Q' p w g := by
  induction p generalizing w g with
  | pure a => exact hQ w a g hp
  | act o k ih =>
    intro os e hO
    obtain ⟨w', r, hx, hk⟩ := hp os e hO
    exact ⟨w', r, hx, ih r hk⟩

theorem Amid.bind {R : W → β → List (Moment Op Res W) → Prop} {f : α → Prog Op Res β}
    (hp : Amid exec O Q p w g) (hf : ∀ w a g, Q w a g → Amid exec O R (f a) w g) :
    Amid exec O R (p >>= f) w g := by
  induction p generalizing w g with
  | pure a => exact hf w a g hp
  | act o k ih =>
    intro os e hO
    obtain ⟨w', r, hx, hk⟩ := hp os e hO
    exact ⟨w', r, hx, ih r hk⟩

theorem Amid.act {I : W → List (Moment Op Res W) → Prop} {o : Op} {k : Res o → Prog Op Res α}
    (h0 : I w g)
    (hothers : ∀ o e w w' r g, O o → exec o e w = some (w', r) → I w g →
      I w' (⟨false, o, r, w'⟩ :: g))
    (hown : ∀ e w g, I w g → ∃ w' r, exec o e w = some (w', r) ∧
      Amid exec O Q (k r) w' (⟨true, o, r, w'⟩ :: g)) :
    Amid exec O Q (.act o k) w g := by
  intro os e hO
  exact hown e _ _ (others_inv hO hothers h0)

/-- The moments follow each other: each is an action on the world the one before it
left, the first on `w₀`; the last left `w`. -/
inductive Linked (exec : (o : Op) → Env → W → Option (W × Res o)) (w₀ : W) :
    List (Moment Op Res W) → W → Prop
  | start : Linked exec w₀ [] w₀
  | next {b : Bool} {o : Op} {e : Env} {r : Res o} {w w' : W} {g : List (Moment Op Res W)} :
    Linked exec w₀ g w → exec o e w = some (w', r) → Linked exec w₀ (⟨b, o, r, w'⟩ :: g) w'

theorem Amid.among {w₀ : W} (hp : Amid exec O Q p w g) (script : Nat → List (Op × Env) × Env)
    (hO : ∀ i, ∀ x ∈ (script i).1, O x.1) (hg : Linked exec w₀ g w) :
    ∃ w' a g', p.among exec script w g = some (w', a, g') ∧ Q w' a g' ∧
      Linked exec w₀ g' w' := by
  induction p generalizing w g script with
  | pure a => exact ⟨w, a, g, rfl, hp, hg⟩
  | act o k ih =>
    obtain ⟨w', r, hx, hk⟩ := hp (script 0).1 (script 0).2 (hO 0)
    have hl : Linked exec w₀ (others exec (script 0).1 w g).2 (others exec (script 0).1 w g).1 :=
      others_inv (I := fun w g => Linked exec w₀ g w) (hO 0)
        (fun _ _ _ _ _ _ _ hx hl => hl.next hx) hg
    simp only [Prog.among, hx]
    exact ih r hk (fun i => script (i + 1)) (fun i => hO (i + 1)) (hl.next hx)

theorem Linked.act {w₀ : W} (hl : Linked exec w₀ g w) {m : Moment Op Res W} (hm : m ∈ g) :
    ∃ e v, exec m.op e v = some (m.after, m.reply) := by
  induction hl with
  | start => cases hm
  | next _ hx ih =>
    rcases List.mem_cons.1 hm with rfl | hm
    · exact ⟨_, _, hx⟩
    · exact ih hm

/-- What every action can only carry further relates each moment to the later ones. -/
theorem Linked.pairwise {R : W → W → Prop} {w₀ : W} (hl : Linked exec w₀ g w)
    (hrefl : ∀ w, R w w) (htrans : ∀ u v w, R u v → R v w → R u w)
    (hstep : ∀ o e w w' r, exec o e w = some (w', r) → R w w') :
    g.Pairwise (fun m m' => R m'.after m.after) ∧ ∀ m ∈ g, R m.after w := by
  induction hl with
  | start => exact ⟨.nil, by simp⟩
  | next _ hx ih =>
    have hlast := fun m hm => htrans _ _ _ (ih.2 m hm) (hstep _ _ _ _ _ hx)
    refine ⟨List.pairwise_cons.2 ⟨hlast, ih.1⟩, ?_⟩
    intro m hm
    rcases List.mem_cons.1 hm with rfl | hm
    · exact hrefl _
    · exact hlast m hm

/-! ### Two programs among the same others -/

/-- The two programs act in step: whatever the others do within `O`, both actions go
through and leave one world; both end together, and `R` holds then. -/
def Abreast (exec : (o : Op) → Env → W → Option (W × Res o)) (O : Op → Prop)
    (R : W → α → β → Prop) : Prog Op Res α → Prog Op Res β → W → Prop
  | .pure a, .pure b, w => R w a b
  | .act o k, .act o' k', w => ∀ (os : List (Op × Env)) (e : Env), (∀ x ∈ os, O x.1) →
    ∃ w' r r', exec o e (others exec os w []).1 = some (w', r) ∧
      exec o' e (others exec os w []).1 = some (w', r') ∧ Abreast exec O R (k r) (k' r') w'
  | _, _, _ => False

/-- The history does not decide what the others do. -/
theorem others_world (os : List (Op × Env)) (w : W) (g : List (Moment Op Res W)) :
    (others exec os w g).1 = (others exec os w []).1 := by
  induction os generalizing w g with
  | nil => rfl
  | cons x os ih =>
    obtain ⟨o, e⟩ := x
    simp only [others]
    split
    · exact ih w g
    · rename_i w' r _
      exact (ih w' _).trans (ih w' _).symm

/-- Under one script the two leave one world. -/
theorem Abreast.among {R : W → α → β → Prop} {q : Prog Op Res β}
    (hp : Abreast exec O R p q w) (script : Nat → List (Op × Env) × Env)
    (hO : ∀ i, ∀ x ∈ (script i).1, O x.1) (g g' : List (Moment Op Res W)) :
    ∃ w' a b h h', p.among exec script w g = some (w', a, h) ∧
      q.among exec script w g' = some (w', b, h') ∧ R w' a b := by
  induction p generalizing q w script g g' with
  | pure a =>
    cases q with
    | pure b => exact ⟨w, a, b, g, g', rfl, rfl, hp⟩
    | act o k => exact hp.elim
  | act o k ih =>
    cases q with
    | pure b => exact hp.elim
    | act o' k' =>
      obtain ⟨w', r, r', hx, hx', hk⟩ := hp (script 0).1 (script 0).2 (hO 0)
      rw [← others_world _ _ g] at hx
      rw [← others_world _ _ g'] at hx'
      simp only [Prog.among, hx, hx']
      exact ih r hk (fun i => script (i + 1)) (fun i => hO (i + 1)) _ _

theorem Abreast.bind {γ δ : Type} {R : W → α → β → Prop} {S : W → γ → δ → Prop}
    {q : Prog Op Res β} {f : α → Prog Op Res γ} {f' : β → Prog Op Res δ}
    (hp : Abreast exec O R p q w) (hf : ∀ w a b, R w a b → Abreast exec O S (f a) (f' b) w) :
    Abreast exec O S (p >>= f) (q >>= f') w := by
  induction p generalizing q w with
  | pure a =>
    cases q with
    | pure b => exact hf w a b hp
    | act o k => exact hp.elim
  | act o k ih =>
    cases q with
    | pure b => exact hp.elim
    | act o' k' =>
      intro os e hO
      obtain ⟨w', r, r', hx, hx', hk⟩ := hp os e hO
      exact ⟨w', r, r', hx, hx', ih r hk⟩

end Prog

end Interleave
