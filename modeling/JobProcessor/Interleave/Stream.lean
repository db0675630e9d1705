import JobProcessor.Interleave.Prog

/-! Programs that read a stream item by item, next to other actions. Items that were
taken off the stream ahead of a program can be handed to it one after the other: it
cannot tell this from reading the stream itself. -/

namespace Interleave.Stream

/-- Read the next item, or do something else. -/
inductive Act (Op : Type) where
  | read
  | other (o : Op)

variable {M Op W α β : Type} {Res : Op → Type}

def Act.Reply (M : Type) (Res : Op → Type) : Act Op → Type
  | .read => M
  | .other o => Res o

abbrev Reader (M Op : Type) (Res : Op → Type) (α : Type) : Type :=
  Prog (Act Op) (Act.Reply M Res) α

/-- The number of items taken, and the world of the other actions. -/
structure At (W : Type) where
  taken : Nat
  world : W

/-- The result of a program and where it leaves the stream and the world. -/
def run (stream : Nat → M) (exec : (o : Op) → W → W × Res o) : Reader M Op Res α → At W → α × At W
  | .pure a, s => (a, s)
  | .act .read k, s => run stream exec (k (stream s.taken)) ⟨s.taken + 1, s.world⟩
  | .act (.other o) k, s => run stream exec (k (exec o s.world).2) ⟨s.taken, (exec o s.world).1⟩

/-- The program with the items of a queue put before the stream. -/
def replay : List M → Reader M Op Res α → Reader M Op Res α
  | _, .pure a => .pure a
  | [], .act .read k => .act .read fun m => replay [] (k m)
  | m :: queue, .act .read k => replay queue (k m)
  | queue, .act (.other o) k => .act (.other o) fun r => replay queue (k r)

variable {stream : Nat → M} {exec : (o : Op) → W → W × Res o} {s : At W}

theorem run_bind (p : Reader M Op Res α) (f : α → Reader M Op Res β) :
    run stream exec (p >>= f) s =
      run stream exec (f (run stream exec p s).1) (run stream exec p s).2 := by
  induction p generalizing s with
  | pure a => rfl
  | act o k ih =>
    cases o with
    | read => exact ih _
    | other o => exact ih _

def segment (stream : Nat → M) (i n : Nat) : List M := (List.range n).map fun j => stream (i + j)

theorem segment_zero (i : Nat) : segment stream i 0 = [] := rfl

theorem segment_succ (i n : Nat) :
    segment stream i (n + 1) = stream i :: segment stream (i + 1) n := by
  rw [segment, List.range_succ_eq_map, List.map_cons, List.map_map, Nat.add_zero, segment]
  congr 1
  apply List.map_congr_left
  intro j _
  rw [Function.comp_apply, Nat.add_assoc, Nat.add_comm 1 j]

theorem segment_concat (i n : Nat) :
    segment stream i (n + 1) = segment stream i n ++ [stream (i + n)] := by
  rw [segment, List.range_succ, List.map_append, List.map_singleton, segment]

theorem run_taken_le (p : Reader M Op Res α) : s.taken ≤ (run stream exec p s).2.taken := by
  induction p generalizing s with
  | pure a => exact Nat.le_refl _
  | act o k ih =>
    cases o with
    | read => exact Nat.le_of_succ_le (ih (stream s.taken) (s := ⟨s.taken + 1, s.world⟩))
    | other o => exact ih (exec o s.world).2 (s := ⟨s.taken, (exec o s.world).1⟩)

theorem replay_other (queue : List M) (o : Op)
    (k : Act.Reply M Res (.other o) → Reader M Op Res α) :
    replay queue (.act (.other o) k) = .act (.other o) fun r => replay queue (k r) := by
  cases queue <;> rfl

/-- A program that is handed the `n` items taken ahead of it does what it would have done
with the stream from where those begin. -/
theorem run_replay (p : Reader M Op Res α) (i n : Nat) (w : W) :
    run stream exec (replay (segment stream i n) p) ⟨i + n, w⟩ =
      ((run stream exec p ⟨i, w⟩).1,
        ⟨max (i + n) (run stream exec p ⟨i, w⟩).2.taken, (run stream exec p ⟨i, w⟩).2.world⟩) := by
  induction p generalizing i n w with
  | pure a => simp [replay, run]
  | act o k ih =>
    cases o with
    | other o =>
      rw [replay_other]
      exact ih (exec o w).2 i n (exec o w).1
    | read =>
      cases n with
      | zero =>
        -- the queue is empty, so the stream itself is read
        have hle : i + 1 ≤ (run stream exec (k (stream i)) ⟨i + 1, w⟩).2.taken :=
          run_taken_le (s := ⟨i + 1, w⟩) (k (stream i))
        have hrest := ih (stream i) (i + 1) 0 w
        rw [segment_zero] at hrest ⊢
        rw [replay, run, Nat.add_zero]
        refine hrest.trans ?_
        rw [run, Nat.add_zero, Nat.max_eq_right hle, Nat.max_eq_right (Nat.le_of_succ_le hle)]
      | succ n =>
        have hrest := ih (stream i) (i + 1) n w
        rw [segment_succ, replay, run, Nat.add_comm n 1, ← Nat.add_assoc]
        exact hrest

end Interleave.Stream
