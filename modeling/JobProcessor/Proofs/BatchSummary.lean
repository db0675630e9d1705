import JobProcessor.Proofs.Writes
import Mathlib.Data.List.Induction

/-! The summary of a batch accounts for every item once: for every context the loop
may be given, every way the items end and every point at which it is cancelled. -/

namespace JobProcessor

open Interleave Interleave.Prog

/-! ### The percentages -/

/-- `int(done / n * 100)` with the division taken exactly. -/
def exactPercent (done n : Nat) : Nat := done * 100 / n

theorem percent_mono {d d' n : Nat} (h : d ≤ d') (hn : d' ≤ n) : percent d n ≤ percent d' n := by
  rcases Nat.eq_zero_or_pos n with rfl | hpos
  · obtain rfl : d' = 0 := by omega
    obtain rfl : d = 0 := by omega
    exact Nat.le_refl _
  have hq : (Binary64.quot d n).Le (Binary64.quot d' n) :=
    Binary64.quot_mono hpos hpos (Nat.mul_le_mul_right n h) (by omega)
  have hb : (Binary64.quot d' n).m ≤ 1 * 2 ^ (Binary64.quot d' n).t :=
    Binary64.quot_le (by omega)
  have hone := Nat.two_pow_pos (Binary64.quot d' n).t
  exact Binary64.Value.toNat_mono (Binary64.Value.mul_mono hq (by omega))

theorem percent_self {n : Nat} (hn : 0 < n) : percent n n = 100 := by
  have hone : (Binary64.quot n n).m = 1 * 2 ^ (Binary64.quot n n).t := by
    have := Binary64.quot_mul_right 1 hn
    rwa [Nat.one_mul] at this
  exact Binary64.Value.mul_toNat 100 hone

theorem exactPercent_mono {d d' n : Nat} (h : d ≤ d') : exactPercent d n ≤ exactPercent d' n :=
  Nat.div_le_div_right (Nat.mul_le_mul_right 100 h)

theorem exactPercent_le {d n : Nat} (h : d ≤ n) : exactPercent d n ≤ 100 :=
  Nat.div_le_of_le_mul (by omega)

theorem exactPercent_self {n : Nat} (hn : 0 < n) : exactPercent n n = 100 :=
  Nat.mul_div_cancel_left 100 hn

def reports (pct : Nat → Nat → Nat) (n k : Nat) : List Nat :=
  (List.range k).map fun i => pct (i + 1) n

theorem reports_succ (pct : Nat → Nat → Nat) (n k : Nat) :
    reports pct n (k + 1) = reports pct n k ++ [pct (k + 1) n] := by
  simp [reports, List.range_succ]

/-- Percentages that never fall; the last of all `n` is 100. -/
structure Climbs (n : Nat) (values : List Nat) : Prop where
  rising : values.Pairwise (· ≤ ·)
  bounded : ∀ p ∈ values, p ≤ 100
  full : values.length = n → values ≠ [] → values.getLast? = some 100

theorem reports_climbs {pct : Nat → Nat → Nat} {n k : Nat} (hk : k ≤ n)
    (hmono : ∀ d d', d ≤ d' → d' ≤ n → pct d n ≤ pct d' n) (hle : ∀ d, d ≤ n → pct d n ≤ 100)
    (hself : 0 < n → pct n n = 100) : Climbs n (reports pct n k) where
  rising := by
    refine List.pairwise_map.2 (List.pairwise_lt_range.imp_of_mem ?_)
    intro a b _ hb hab
    have := List.mem_range.1 hb
    exact hmono _ _ (by omega) (by omega)
  bounded := by
    intro p hp
    obtain ⟨i, hi, rfl⟩ := List.mem_map.1 hp
    have := List.mem_range.1 hi
    exact hle _ (by omega)
  full := by
    intro hlen hne
    obtain rfl : k = n := by simpa [reports] using hlen
    cases k with
    | zero => exact absurd rfl hne
    | succ k =>
      rw [reports_succ, List.getLast?_concat, hself (by omega)]

/-! ### The summary of a list of outcomes -/

abbrev ItemEnd := Except (String × String) Json

def Summary.recordAll (s : Summary) : Nat → List ItemEnd → Summary
  | _, [] => s
  | i, r :: rs => (s.record i r).recordAll (i + 1) rs

theorem Summary.recordAll_concat (s : Summary) (i : Nat) (rs : List ItemEnd) (r : ItemEnd) :
    s.recordAll i (rs ++ [r]) = (s.recordAll i rs).record (i + rs.length) r := by
  induction rs generalizing s i with
  | nil => rfl
  | cons r' rs ih =>
    simp only [List.cons_append, recordAll, ih, List.length_cons]
    congr 1
    omega

/-- The summary accounts for the outcomes `ends`, each once and at its own index. -/
structure Accounts (n : Nat) (ends : List ItemEnd) (s : Summary) : Prop where
  total : s.total = n
  succeeded : s.succeeded = s.results.length
  failed : s.failed = s.errors.length
  sum : s.succeeded + s.failed = ends.length
  results_rising : (s.results.map Prod.fst).Pairwise (· < ·)
  errors_rising : (s.errors.map Prod.fst).Pairwise (· < ·)
  indexes : (s.results.map Prod.fst ++ s.errors.map Prod.fst).Perm (List.range ends.length)
  result_own : ∀ i v, (i, v) ∈ s.results ↔ ends[i]? = some (.ok v)
  error_own : ∀ i msg, (i, msg) ∈ s.errors ↔ ∃ type, ends[i]? = some (.error (type, msg))

theorem getElem?_concat_iff {α : Type} (l : List α) (a b : α) (i : Nat) :
    (l ++ [a])[i]? = some b ↔ l[i]? = some b ∨ i = l.length ∧ a = b := by
  rcases Nat.lt_trichotomy i l.length with h | h | h
  · simp [List.getElem?_append_left h, Nat.ne_of_lt h]
  · simp [h]
  · have h₁ : (l ++ [a])[i]? = none := List.getElem?_eq_none (by simp; omega)
    have h₂ : l[i]? = none := List.getElem?_eq_none (by omega)
    simp [h₁, h₂, Nat.ne_of_gt h]

theorem Accounts.lt {n : Nat} {ends : List ItemEnd} {s : Summary} (h : Accounts n ends s) {i : Nat}
    (hi : i ∈ s.results.map Prod.fst ++ s.errors.map Prod.fst) : i < ends.length :=
  List.mem_range.1 (h.indexes.mem_iff.1 hi)

theorem Accounts.record {n : Nat} {ends : List ItemEnd} {s : Summary} (h : Accounts n ends s)
    (r : ItemEnd) : Accounts n (ends ++ [r]) (s.record ends.length r) := by
  have hres : ∀ i ∈ s.results.map Prod.fst, i < ends.length := fun i hi =>
    h.lt (List.mem_append_left _ hi)
  have herr : ∀ i ∈ s.errors.map Prod.fst, i < ends.length := fun i hi =>
    h.lt (List.mem_append_right _ hi)
  have hs := h.succeeded
  have hf := h.failed
  have hsum := h.sum
  cases r with
  | ok v =>
    refine
      { total := h.total, succeeded := by simp [Summary.record, hs], failed := hf,
        sum := by simp [Summary.record]; omega, results_rising := ?_,
        errors_rising := h.errors_rising, indexes := ?_, result_own := ?_, error_own := ?_ }
    · simp only [Summary.record, List.map_append, List.map_cons, List.map_nil]
      rw [List.pairwise_append]
      refine ⟨h.results_rising, List.pairwise_singleton _ _, ?_⟩
      simpa using hres
    · simp only [Summary.record, List.map_append, List.map_cons, List.map_nil, List.length_append,
        List.length_singleton, List.range_succ, List.append_assoc]
      refine (List.Perm.append_left _ List.perm_append_comm).trans ?_
      rw [← List.append_assoc]
      exact h.indexes.append_right _
    · intro i v'
      simp only [Summary.record, List.mem_append, List.mem_singleton, getElem?_concat_iff,
        h.result_own, Prod.mk.injEq, Except.ok.injEq, eq_comm (a := v')]
    · intro i msg
      simp [Summary.record, getElem?_concat_iff, h.error_own]
  | error exc =>
    refine
      { total := h.total, succeeded := hs, failed := by simp [Summary.record, hf],
        sum := by simp [Summary.record]; omega, results_rising := h.results_rising,
        errors_rising := ?_, indexes := ?_, result_own := ?_, error_own := ?_ }
    · simp only [Summary.record, List.map_append, List.map_cons, List.map_nil]
      rw [List.pairwise_append]
      refine ⟨h.errors_rising, List.pairwise_singleton _ _, ?_⟩
      simpa using herr
    · simp only [Summary.record, List.map_append, List.map_cons, List.map_nil, List.length_append,
        List.length_singleton, List.range_succ]
      rw [← List.append_assoc]
      exact h.indexes.append_right _
    · intro i v
      simp [Summary.record, getElem?_concat_iff, h.result_own]
    · intro i msg
      simp only [Summary.record, List.mem_append, List.mem_singleton, getElem?_concat_iff,
        h.error_own, Prod.mk.injEq, Except.error.injEq]
      constructor
      · rintro (⟨type, ht⟩ | ⟨rfl, rfl⟩)
        · exact ⟨type, .inl ht⟩
        · exact ⟨exc.1, .inr ⟨rfl, rfl⟩⟩
      · rintro ⟨type, ht | ⟨rfl, rfl⟩⟩
        · exact .inl ⟨type, ht⟩
        · exact .inr ⟨rfl, rfl⟩

theorem recordAll_accounts (n : Nat) (ends : List ItemEnd) :
    Accounts n ends (Summary.recordAll { total := n } 0 ends) := by
  induction ends using List.reverseRecOn with
  | nil =>
    exact ⟨rfl, rfl, rfl, rfl, .nil, .nil, .refl _, by simp [Summary.recordAll],
      by simp [Summary.recordAll]⟩
  | append_singleton ends r ih =>
    rw [Summary.recordAll_concat, Nat.zero_add]
    exact ih.record r

/-! ### The loop with a log -/

/-- The `JobContext` protocol: a state `σ` that is told percentages and asked
whether to stop. -/
structure JobContext (σ : Type) where
  jobId : σ → Uuid
  setProgress : σ → Int → σ
  cancelled : σ → Prg (σ × Bool)

def pgJobContext : JobContext PgJobContext where
  jobId := PgJobContext.jobId
  setProgress := PgJobContext.setProgress
  cancelled := PgJobContext.cancelled

/-- What a batch run did: the answers it got from `cancelled`, the items it ran with
how each ended, and the percentages it reported. -/
structure BatchLog where
  answers : List Bool := []
  ran : List (PayloadItem × ItemEnd) := []
  progress : List Nat := []

/-- `handle_batch` over any context, keeping a log. -/
def recordBatch {σ : Type} (C : JobContext σ) (n : Nat) :
    Nat → List PayloadItem → σ → Summary → BatchLog → Prg (Except HandlerExc Json × BatchLog)
  | _, [], _, s, log => Pure.pure (.ok s.json, log)
  | i, item :: items, ctx, s, log => do
    let (ctx, c) ← C.cancelled ctx
    let log := { log with answers := log.answers ++ [c] }
    if c then Pure.pure (.error (.cancelled s.json), log)
    else do
      perform (.startHandler (C.jobId ctx) item.type)
      let r : ItemEnd ← perform (.finishHandler item.type)
      let pct := percent (i + 1) n
      recordBatch C n (i + 1) items (C.setProgress ctx pct) (s.record i r)
        { log with ran := log.ran ++ [(item, r)], progress := log.progress ++ [pct] }

/-- Without its log this is the loop the worker runs. -/
theorem recordBatch_erase (n i : Nat) (items : List PayloadItem) (ctx : PgJobContext)
    (s : Summary) (log : BatchLog) :
    (recordBatch pgJobContext n i items ctx s log >>= fun r => Pure.pure r.1) =
      handleBatch n i items ctx s := by
  induction items generalizing i ctx s log with
  | nil => rfl
  | cons item items ih =>
    rw [recordBatch, handleBatch, bind_assoc]
    refine congrArg (PgJobContext.cancelled ctx >>= ·) (funext ?_)
    rintro ⟨ctx', c⟩
    dsimp only
    split
    · rfl
    · refine congrArg (Prog.act _) (funext fun _ => ?_)
      refine congrArg (Prog.act _) (funext fun r => ?_)
      exact ih (i + 1) _ _ _

/-- A run of a batch, as it should be: the items run are the first ones, in order; the
loop ends after all of them or at the first true answer; the summary accounts for
the items run and the percentages climb. -/
structure BatchExact (items : List PayloadItem) (result : Except HandlerExc Json)
    (log : BatchLog) : Prop where
  in_order : log.ran.map Prod.fst = items.take log.ran.length
  outcome : ∃ s, Accounts items.length (log.ran.map Prod.snd) s ∧
    (result = .ok s.json ∧ log.ran.length = items.length ∧
        log.answers = List.replicate items.length false ∨
      result = .error (.cancelled s.json) ∧ log.ran.length < items.length ∧
        log.answers = List.replicate log.ran.length false ++ [true])
  reported : log.progress.length = log.ran.length
  climbs : Climbs items.length log.progress
  exact_climbs : Climbs items.length (reports exactPercent items.length log.ran.length)

/-- The state of the loop at item `i`: everything before it was run. -/
structure BatchState (items : List PayloadItem) (i : Nat) (s : Summary) (log : BatchLog) :
    Prop where
  le : i ≤ items.length
  ran : log.ran.map Prod.fst = items.take i
  summary : s = Summary.recordAll { total := items.length } 0 (log.ran.map Prod.snd)
  answers : log.answers = List.replicate i false
  progress : log.progress = reports percent items.length i

theorem BatchState.length {items : List PayloadItem} {i : Nat} {s : Summary} {log : BatchLog}
    (h : BatchState items i s log) : log.ran.length = i := by
  have hlen := congrArg List.length h.ran
  simpa [Nat.min_eq_left h.le] using hlen

theorem BatchState.next {items rest : List PayloadItem} {i : Nat} {s : Summary} {log : BatchLog}
    {item : PayloadItem} (h : BatchState items i s log) (hrest : items.drop i = item :: rest)
    (r : ItemEnd) :
    BatchState items (i + 1) (s.record i r)
      ⟨log.answers ++ [false], log.ran ++ [(item, r)],
        log.progress ++ [percent (i + 1) items.length]⟩ where
  le := by
    have := congrArg List.length hrest
    simp at this
    omega
  ran := by
    have hi : items[i]? = some item := by
      rw [← List.head?_drop, hrest]
      rfl
    rw [List.map_append, h.ran, List.take_add_one, hi]
    rfl
  summary := by
    rw [List.map_append, List.map_cons, List.map_nil, Summary.recordAll_concat, ← h.summary,
      List.length_map, h.length, Nat.zero_add]
  answers := by rw [h.answers, List.replicate_succ']
  progress := by rw [h.progress, reports_succ]

theorem BatchState.exact {items : List PayloadItem} {i : Nat} {s : Summary} {log : BatchLog}
    (h : BatchState items i s log) {result : Except HandlerExc Json} {answers : List Bool}
    (hout : result = .ok s.json ∧ i = items.length ∧ answers = List.replicate items.length false ∨
      result = .error (.cancelled s.json) ∧ i < items.length ∧
        answers = List.replicate i false ++ [true]) :
    BatchExact items result { log with answers := answers } where
  in_order := by
    rw [h.ran, h.length]
  outcome := by
    refine ⟨s, ?_, ?_⟩
    · rw [h.summary]
      exact recordAll_accounts _ _
    · rw [h.length]
      exact hout
  reported := by
    rw [h.progress, h.length]
    simp [reports]
  climbs := by
    rw [h.progress]
    exact reports_climbs h.le (fun _ _ => percent_mono) (fun _ => percent_le) percent_self
  exact_climbs := by
    rw [h.length]
    exact reports_climbs h.le (fun _ _ hd _ => exactPercent_mono hd) (fun _ => exactPercent_le)
      exactPercent_self

theorem recordBatch_exact {σ : Type} (C : JobContext σ) {items rest : List PayloadItem} {i : Nat}
    {s : Summary} {log : BatchLog} (h : BatchState items i s log) (hrest : items.drop i = rest)
    (ctx : σ) (g : List (Reply Op Op.Res)) :
    Emits (fun _ _ => True) (fun _ _ => True) (fun _ r => BatchExact items r.1 r.2) g
      (recordBatch C items.length i rest ctx s log) := by
  induction rest generalizing i s log ctx g with
  | nil =>
    have hi : i = items.length := Nat.le_antisymm h.le (List.drop_eq_nil_iff.1 hrest)
    exact h.exact (.inl ⟨rfl, hi, hi ▸ h.answers⟩)
  | cons item rest ih =>
    have hlt : i < items.length := by
      have := congrArg List.length hrest
      simp at this
      omega
    refine (emits_trivial (C.cancelled ctx) g).bind fun g a _ => ?_
    obtain ⟨ctx', c⟩ := a
    dsimp only
    split
    · rename_i hc
      subst hc
      exact h.exact (.inr ⟨rfl, hlt, by rw [h.answers]⟩)
    · rename_i hc
      have hc' : c = false := by simpa using hc
      subst hc'
      refine ⟨trivial, fun _ _ => ⟨trivial, fun r _ => ?_⟩⟩
      refine ih (h.next hrest r) ?_ _ _
      rw [← List.drop_drop, hrest]
      rfl

/-- For every context, every item list and every reply along the way, a batch run
accounts for every item once; and the loop the worker runs is this one, its log
dropped. -/
theorem handleBatch_exact :
    (∀ (σ : Type) (C : JobContext σ) (items : List PayloadItem) (ctx : σ),
      Emits (fun _ _ => True) (fun _ _ => True) (fun _ r => BatchExact items r.1 r.2) []
        (recordBatch C items.length 0 items ctx { total := items.length } {})) ∧
    ∀ (items : List PayloadItem) (ctx : PgJobContext),
      handleBatch items.length 0 items ctx { total := items.length } =
        (recordBatch pgJobContext items.length 0 items ctx { total := items.length } {} >>=
          fun r => Pure.pure r.1) := by
  constructor
  · intro σ C items ctx
    have h0 : BatchState items 0 { total := items.length } {} :=
      ⟨Nat.zero_le _, rfl, rfl, rfl, rfl⟩
    exact recordBatch_exact C h0 rfl ctx []
  · intro items ctx
    exact (recordBatch_erase _ _ _ _ _ _).symm

end JobProcessor
