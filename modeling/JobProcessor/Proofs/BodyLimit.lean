import JobProcessor.Model.Middleware

/-! The limit on request bodies: a request over it is answered with one 413 and never
reaches the application; to any other request the application does what it would have
done on the server itself. -/

namespace JobProcessor

open Codec Codec.Unicode Interleave Stream

/-! ### The size of a request -/

/-- A well-formed length among the headers: one that `int` reads. -/
def Declares (headers : Headers) (n : Int) : Prop :=
  ∃ value, (contentLength, value) ∈ headers ∧ Integer.ofBytes value = some n

def Inbound.size (m : Inbound) : Nat :=
  if m.type = .httpRequest then (m.body.getD []).length else 0

/-- No message of the body follows: the final chunk, or a disconnect. -/
def Inbound.final (m : Inbound) : Bool := m.type ≠ .httpRequest || !m.moreBody.getD false

def received (messages : Nat → Inbound) : Nat → Nat
  | 0 => 0
  | n + 1 => received messages n + (messages n).size

/-- The first `k` messages do not complete the body. -/
def Unfinished (messages : Nat → Inbound) (k : Nat) : Prop := ∀ j < k, (messages j).final = false

/-- Message `k` is the final chunk or the disconnect. -/
def EndsAt (messages : Nat → Inbound) (k : Nat) : Prop :=
  Unfinished messages k ∧ (messages k).final = true

/-- The bodies up to the final chunk or disconnect add up to more than the limit. -/
def Oversize (maxBytes : Nat) (messages : Nat → Inbound) : Prop :=
  ∃ k, Unfinished messages k ∧ maxBytes < received messages (k + 1)

def TooLarge (maxBytes : Nat) (headers : Headers) (messages : Nat → Inbound) : Prop :=
  (∃ n, Declares headers n ∧ (maxBytes : Int) < n) ∨ Oversize maxBytes messages

theorem Inbound.type_of_not_final {m : Inbound} (h : m.final = false) : m.type = .httpRequest := by
  by_contra hne
  simp [Inbound.final, hne] at h

section Size

variable {maxBytes : Nat} {messages : Nat → Inbound}

theorem received_mono {i j : Nat} (h : i ≤ j) : received messages i ≤ received messages j := by
  induction j, h using Nat.le_induction with
  | base => exact le_rfl
  | succ j _ ih => exact ih.trans (Nat.le_add_right _ _)

theorem oversize_iff {k : Nat} (hk : EndsAt messages k) :
    Oversize maxBytes messages ↔ maxBytes < received messages (k + 1) := by
  constructor
  · rintro ⟨j, hj, hlt⟩
    have hjk : j ≤ k := by
      by_contra hkj
      have hnot := hj k (by omega)
      rw [hk.2] at hnot
      cases hnot
    exact hlt.trans_le (received_mono (by omega))
  · intro hlt
    exact ⟨k, hk.1, hlt⟩

theorem declaredTooLarge_iff {headers : Headers} : declaredTooLarge maxBytes headers = true ↔
    ∃ n, Declares headers n ∧ (maxBytes : Int) < n := by
  induction headers with
  | nil => simp [declaredTooLarge, Declares]
  | cons header headers ih =>
    obtain ⟨name, value⟩ := header
    have hcons : ∀ n, Declares ((name, value) :: headers) n ↔
        (name = contentLength ∧ Integer.ofBytes value = some n) ∨ Declares headers n := by
      intro n
      simp only [Declares, List.mem_cons, Prod.mk.injEq]
      constructor
      · rintro ⟨v, ⟨hname, rfl⟩ | hv, hn⟩
        · exact Or.inl ⟨hname.symm, hn⟩
        · exact Or.inr ⟨v, hv, hn⟩
      · rintro (⟨rfl, hn⟩ | ⟨v, hv, hn⟩)
        · exact ⟨value, Or.inl ⟨rfl, rfl⟩, hn⟩
        · exact ⟨v, Or.inr hv, hn⟩
    simp only [hcons, or_and_right, exists_or, ← ih]
    rw [declaredTooLarge]
    by_cases hname : name = contentLength
    · rw [if_pos hname]
      cases hv : Integer.ofBytes value with
      | none => simp
      | some n => by_cases hn : (maxBytes : Int) < n <;> simp [hname, hn]
    · rw [if_neg hname]
      simp [hname]

end Size

/-! ### The loop over the messages -/

section Loop

variable {Op W : Type} {Res : Op → Type} {maxBytes : Nat} {messages : Nat → Inbound}
  {exec : (o : AsgiOp Op) → W → W × AsgiOp.Reply Res o} {w : W}

theorem bufferBody_round (fuel i : Nat) :
    run messages exec (bufferBody maxBytes (fuel + 1) (segment messages 0 i) (received messages i))
        ⟨i, w⟩ =
      if (messages i).type ≠ .httpRequest then (.complete (segment messages 0 (i + 1)), ⟨i + 1, w⟩)
      else if maxBytes < received messages (i + 1) then (.tooLarge, ⟨i + 1, w⟩)
      else if (messages i).final = true then (.complete (segment messages 0 (i + 1)), ⟨i + 1, w⟩)
      else run messages exec (bufferBody maxBytes fuel (segment messages 0 (i + 1))
        (received messages (i + 1))) ⟨i + 1, w⟩ := by
  have hbuffered : segment messages 0 i ++ [messages i] = segment messages 0 (i + 1) := by
    rw [segment_concat, Nat.zero_add]
  by_cases htype : (messages i).type = .httpRequest
  · have htotal : received messages i + ((messages i).body.getD []).length =
        received messages (i + 1) := by
      rw [received, Inbound.size, if_pos htype]
    have hfinal : (messages i).final = !(messages i).moreBody.getD false := by
      simp [Inbound.final, htype]
    rw [if_neg (not_not.2 htype), hfinal, ← hbuffered, ← htotal]
    change run messages exec (if (messages i).type ≠ .httpRequest then _ else _) ⟨i + 1, w⟩ = _
    rw [if_neg (not_not.2 htype)]
    split
    case isTrue => rfl
    case isFalse =>
      split
      · rfl
      · rfl
  · rw [if_pos htype, ← hbuffered]
    change run messages exec (if (messages i).type ≠ .httpRequest then _ else _) ⟨i + 1, w⟩ = _
    rw [if_pos htype]
    rfl

theorem bufferBody_complete {k : Nat} (hk : EndsAt messages k)
    (hsize : received messages (k + 1) ≤ maxBytes) {fuel i : Nat} (hi : i ≤ k) (hf : k < i + fuel) :
    run messages exec (bufferBody maxBytes fuel (segment messages 0 i) (received messages i)) ⟨i, w⟩ =
      (.complete (segment messages 0 (k + 1)), ⟨k + 1, w⟩) := by
  induction fuel generalizing i with
  | zero => omega
  | succ fuel ih =>
    rw [bufferBody_round]
    have hle : ¬ maxBytes < received messages (i + 1) :=
      Nat.not_lt.2 ((received_mono (by omega)).trans hsize)
    by_cases hik : i = k
    · subst hik
      rw [if_neg hle, if_pos hk.2, ite_self]
    · have hlast := hk.1 i (by omega)
      have htype := Inbound.type_of_not_final hlast
      rw [if_neg (not_not.2 htype), if_neg hle, hlast, if_neg Bool.false_ne_true]
      exact ih (by omega) (by omega)

theorem bufferBody_tooLarge {k : Nat} (hk : Unfinished messages k)
    (hsize : maxBytes < received messages (k + 1)) {fuel i : Nat} (hi : i ≤ k) (hf : k < i + fuel)
    (hbefore : received messages i ≤ maxBytes) : ∃ taken,
    run messages exec (bufferBody maxBytes fuel (segment messages 0 i) (received messages i)) ⟨i, w⟩ =
      (.tooLarge, ⟨taken, w⟩) := by
  induction fuel generalizing i with
  | zero => omega
  | succ fuel ih =>
    rw [bufferBody_round]
    by_cases hlt : maxBytes < received messages (i + 1)
    · -- only a request can have brought the bytes that crossed the limit
      have htype : (messages i).type = .httpRequest := by
        by_contra hne
        rw [received, Inbound.size, if_neg hne] at hlt
        omega
      rw [if_neg (not_not.2 htype), if_pos hlt]
      exact ⟨i + 1, rfl⟩
    · have hik : i < k := by
        rcases Nat.lt_or_eq_of_le hi with h | rfl
        · exact h
        · exact absurd hsize hlt
      have hlast := hk i hik
      have htype := Inbound.type_of_not_final hlast
      rw [if_neg (not_not.2 htype), if_neg hlt, hlast, if_neg Bool.false_ne_true]
      exact ih hik (by omega) (Nat.not_lt.1 hlt)

theorem bufferBody_waiting (hend : ∀ k, (messages k).final = false)
    (hsize : ∀ k, received messages k ≤ maxBytes) (fuel i : Nat) :
    run messages exec (bufferBody maxBytes fuel (segment messages 0 i) (received messages i)) ⟨i, w⟩ =
      (.waiting, ⟨i + fuel, w⟩) := by
  induction fuel generalizing i with
  | zero => rfl
  | succ fuel ih =>
    have hlast := hend i
    have htype := Inbound.type_of_not_final hlast
    rw [bufferBody_round, if_neg (not_not.2 htype), if_neg (Nat.not_lt.2 (hsize (i + 1))), hlast,
      if_neg Bool.false_ne_true, ih, Nat.add_assoc, Nat.add_comm 1]

end Loop

/-! ### The middleware -/

def response413 : List Outbound :=
  [.httpResponseStart 413 [(ofString "content-type", ofString "application/json"),
    (contentLength, Json.decimal tooLargeDetail.length)],
    .httpResponseBody tooLargeDetail none]

section Middleware

variable {Op W α : Type} {Res : Op → Type} (maxBytes : Nat) (app : Scope → Asgi Op Res α)
  (headers : Headers) (messages : Nat → Inbound) (other : (o : Op) → W → W × Res o) (w : W)

def limited (fuel : Nat) : Limited α × At (Wire W) :=
  serve messages other (bodySizeLimit maxBytes fuel app ⟨.http, headers⟩) w

/-- The application is not called, and one 413 is sent. -/
def Rejected : Prop :=
  ∃ n, ∀ fuel ≥ n, ∃ taken, limited maxBytes app headers messages other w fuel =
    (.rejected, ⟨taken, response413, w⟩)

/-- The application is called once and nothing is sent but by it. Whatever it is, it ends
as it does where it is called by the server itself, where its receives return the
messages from the first on; the server has been asked for the body and for what the
application read beyond it. -/
def PassedOn (k : Nat) : Prop :=
  ∃ n, ∀ fuel ≥ n, limited maxBytes app headers messages other w fuel =
    (.called (serve messages other (app ⟨.http, headers⟩) w).1,
      ⟨max (k + 1) (serve messages other (app ⟨.http, headers⟩) w).2.taken,
        (serve messages other (app ⟨.http, headers⟩) w).2.world⟩)

/-- However often it is asked, the server has not completed the body: nothing is sent and
nothing is called. -/
def Pending : Prop :=
  ∀ fuel, limited maxBytes app headers messages other w fuel = (.waiting, ⟨fuel, [], w⟩)

variable {maxBytes app headers messages other w}

theorem limited_eq (hd : declaredTooLarge maxBytes headers = false) {fuel : Nat} {b : Buffered}
    {s : At (Wire W)} (hb : run messages (execAsgi other) (bufferBody maxBytes fuel [] 0)
      ⟨0, [], w⟩ = (b, s)) : limited maxBytes app headers messages other w fuel =
      run messages (execAsgi other) (afterBuffering app ⟨.http, headers⟩ b) s := by
  rw [limited, serve, bodySizeLimit, if_neg (not_not.2 rfl), hd, if_neg Bool.false_ne_true,
    run_bind, hb]

theorem rejected_of_declared (hd : declaredTooLarge maxBytes headers = true) :
    Rejected maxBytes app headers messages other w := by
  refine ⟨0, fun fuel _ => ⟨0, ?_⟩⟩
  rw [limited, serve, bodySizeLimit, if_neg (not_not.2 rfl), if_pos hd]
  rfl

theorem rejected_of_oversize (hd : declaredTooLarge maxBytes headers = false)
    (ho : Oversize maxBytes messages) : Rejected maxBytes app headers messages other w := by
  obtain ⟨k, hk, hlt⟩ := ho
  refine ⟨k + 1, fun fuel hfuel => ?_⟩
  have hf : k < 0 + fuel := by omega
  obtain ⟨taken, hrun⟩ := bufferBody_tooLarge hk hlt (Nat.zero_le k) hf (Nat.zero_le maxBytes)
  exact ⟨taken, limited_eq hd hrun⟩

theorem passedOn_of_endsAt (hd : declaredTooLarge maxBytes headers = false) {k : Nat}
    (hk : EndsAt messages k) (hsize : received messages (k + 1) ≤ maxBytes) :
    PassedOn maxBytes app headers messages other w k := by
  refine ⟨k + 1, fun fuel hfuel => ?_⟩
  have hf : k < 0 + fuel := by omega
  have hreplay : run messages (execAsgi other)
      (replayReceive (segment messages 0 (k + 1)) (app ⟨.http, headers⟩))
      (⟨0 + (k + 1), [], w⟩ : At (Wire W)) = _ :=
    run_replay (app ⟨.http, headers⟩) 0 (k + 1) (⟨[], w⟩ : Wire W)
  rw [Nat.zero_add] at hreplay
  rw [limited_eq hd (bufferBody_complete hk hsize (Nat.zero_le k) hf), afterBuffering, run_bind,
    hreplay]
  rfl

theorem pending_of_endless (hd : declaredTooLarge maxBytes headers = false)
    (hend : ∀ k, ¬ EndsAt messages k) (ho : ¬ Oversize maxBytes messages) :
    Pending maxBytes app headers messages other w := by
  have hunfinished : ∀ k, Unfinished messages k := by
    intro k
    induction k with
    | zero => exact fun j hj => absurd hj (Nat.not_lt_zero j)
    | succ k ih =>
      intro j hj
      rcases Nat.lt_succ_iff_lt_or_eq.1 hj with h | rfl
      · exact ih j h
      · exact Bool.eq_false_iff.2 fun hfinal => hend j ⟨ih, hfinal⟩
  have hsize : ∀ k, received messages k ≤ maxBytes := by
    intro k
    refine (received_mono (Nat.le_succ k)).trans (Nat.not_lt.1 fun hlt => ?_)
    exact ho ⟨k, hunfinished k, hlt⟩
  intro fuel
  have hlast : ∀ k, (messages k).final = false := fun k => hunfinished (k + 1) k (Nat.lt_succ_self k)
  rw [limited_eq hd (bufferBody_waiting hlast hsize fuel 0), Nat.zero_add]
  rfl

variable (maxBytes app headers messages other w)

/-- Above the limit the application is never reached, below it the middleware is not
noticed, and a body of exactly the limit is below it. A length in decimal digits is
well-formed. A body that never ends and never passes the limit keeps the middleware
waiting. -/
theorem bodyLimit_exact :
    (TooLarge maxBytes headers messages → Rejected maxBytes app headers messages other w) ∧
    (∀ value, (contentLength, value) ∈ headers → value ≠ [] → (∀ c ∈ value, isDigit c = true) →
      value.length ≤ Integer.maxStrDigits → maxBytes < digitsValue value →
      Rejected maxBytes app headers messages other w) ∧
    (¬ TooLarge maxBytes headers messages → ∀ k, EndsAt messages k →
      PassedOn maxBytes app headers messages other w k) ∧
    (¬ TooLarge maxBytes headers messages → (∀ k, ¬ EndsAt messages k) →
      Pending maxBytes app headers messages other w) ∧
    ∀ k, EndsAt messages k → received messages (k + 1) = maxBytes →
      (∀ n, Declares headers n → n ≤ maxBytes) →
      PassedOn maxBytes app headers messages other w k := by
  have hdeclared : ¬ TooLarge maxBytes headers messages →
      declaredTooLarge maxBytes headers = false := fun h =>
    Bool.eq_false_iff.2 fun hd => h (Or.inl (declaredTooLarge_iff.1 hd))
  have hbelow : ¬ TooLarge maxBytes headers messages → ∀ k, EndsAt messages k →
      PassedOn maxBytes app headers messages other w k := by
    intro h k hk
    refine passedOn_of_endsAt (hdeclared h) hk (Nat.not_lt.1 fun hlt => ?_)
    exact h (Or.inr ((oversize_iff hk).2 hlt))
  have habove : TooLarge maxBytes headers messages →
      Rejected maxBytes app headers messages other w := by
    intro h
    by_cases hd : declaredTooLarge maxBytes headers = true
    · exact rejected_of_declared hd
    · rcases h with hn | ho
      · exact absurd (declaredTooLarge_iff.2 hn) hd
      · exact rejected_of_oversize (Bool.eq_false_iff.2 hd) ho
  refine ⟨habove, fun value hmem hne hdigits hlen hlt => habove (Or.inl ?_), hbelow,
    fun h hend => ?_, fun k hk hsize hn => hbelow ?_ k hk⟩
  · exact ⟨digitsValue value, ⟨value, hmem, Integer.ofBytes_digits hne hdigits hlen⟩,
      Int.ofNat_lt.2 hlt⟩
  · exact pending_of_endless (hdeclared h) hend fun ho => h (Or.inr ho)
  · rintro (⟨n, hdn, hlt⟩ | ho)
    · exact absurd (hn n hdn) (not_le.2 hlt)
    · exact absurd ((oversize_iff hk).1 ho) (by omega)

end Middleware

end JobProcessor
