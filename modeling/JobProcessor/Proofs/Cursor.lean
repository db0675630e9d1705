import JobProcessor.Model.Api

/-! Cursors: what is written is read back, and what a client sends is either read or
turned down with a `ValueError`. Both fail, each at its own kind of input: the reader of
timestamps loses an offset from UTC under a second, and the `except` clause of
`decode_cursor` names neither the `TypeError` nor the `AttributeError` that JSON of
another shape than a cursor's leads to. -/

namespace JobProcessor

open Codec Codec.Unicode Codec.Json Codec.Datetime
open Interleave (Prog)

/-! ### The round trip -/

/-- An offset from UTC that is under a second, but not zero. -/
def OffsetUnderSecond (d : DateTime) : Prop :=
  ∃ o, d.fields.offset = some o ∧ o ≠ 0 ∧ o.natAbs < 1000000

theorem ascii_scalar {c : Nat} (h : c < 128) : IsScalar c := by
  unfold IsScalar
  omega

theorem cursorObject_sound (d : DateTime) (i : Uuid) : (cursorObject d i).Sound := by
  have hkeys : word ['c'] ≠ word ['i'] := by decide
  have hi : ∀ c ∈ Codec.Uuid.format i, IsScalar c := by
    intro c hc
    have h := Codec.Uuid.format_plain i c hc
    unfold Codec.Uuid.Plain at h
    exact ascii_scalar (by omega)
  refine ⟨by simp [hkeys], (soundMembers_iff _).2 ?_⟩
  intro m hm
  simp only [List.mem_cons, List.not_mem_nil, or_false] at hm
  rcases hm with rfl | rfl
  · exact ⟨by simp only [IsScalar]; decide, fun c hc => ascii_scalar (isoformat_lt d c hc)⟩
  · exact ⟨by simp only [IsScalar]; decide, hi⟩

theorem dumps_cursorObject (d : DateTime) (i : Uuid) :
    ∃ t, dumps [32] (cursorObject d i) = 123 :: 34 :: 99 :: 34 :: t := ⟨_, rfl⟩

theorem cursorData_encode (d : DateTime) (i : Uuid) :
    cursorData (encodeCursor d i) = some (cursorObject d i) := by
  have hsound := cursorObject_sound d i
  have hlt : ∀ c ∈ dumps [32] (cursorObject d i), c < 128 := dumps_lt (by simp) _ hsound
  have hlt' : ∀ c ∈ Base64.encode (dumps [32] (cursorObject d i)), c < 128 :=
    Base64.encode_lt _ fun c hc => (hlt c hc).trans (by decide)
  have hdetect : decodeDetected (dumps [32] (cursorObject d i)) =
      some (dumps [32] (cursorObject d i)) := by
    obtain ⟨t, ht⟩ := dumps_cursorObject d i
    rw [ht] at hlt ⊢
    exact decodeDetected_ascii (by decide) (by decide) hlt
  rw [cursorData, encodeCursor, encodeUtf8_ascii _ hlt, ofString_toString _ hlt',
    encodeUtf8_ascii _ hlt', Base64.decode_encode _ fun c hc => (hlt c hc).trans (by decide)]
  simp only [Option.bind_eq_bind, Option.bind_some, hdetect]
  exact loads_dumps (by simp [isSpace]) hsound

/-- Only the reader of timestamps decides what comes back. -/
theorem decodeCursor_encode (d : DateTime) (i : Uuid) : decodeCursor (encodeCursor d i) =
    (fromisoformat (isoformat d)).elim (.error .valueError) fun d' => .ok (d', i) := by
  have hread : readCursor (encodeCursor d i) =
      (fromisoformat (isoformat d)).elim (.error .valueError) fun d' => .ok (d', i) := by
    rw [readCursor, cursorData_encode]
    cases h : fromisoformat (isoformat d) with
    | none => simp [subscript, cursorObject, getItem, datetimeFromisoformat, h, bind, Except.bind]
    | some d' =>
      have hkeys : word ['c'] ≠ word ['i'] := by decide
      simp [subscript, cursorObject, getItem, datetimeFromisoformat, makeUuid, h, bind, Except.bind,
        hkeys, Codec.Uuid.parse_format]
  rw [decodeCursor, hread]
  cases fromisoformat (isoformat d) <;> rfl

theorem decodeCursor_encode_iff (d : DateTime) (i : Uuid) :
    decodeCursor (encodeCursor d i) = .ok (d, i) ↔ ¬ OffsetUnderSecond d := by
  have hiff : fromisoformat (isoformat d) = some d ↔ ¬ OffsetUnderSecond d := by
    rw [fromisoformat_isoformat_iff, OffsetUnderSecond]
    constructor
    · rintro h ⟨o, ho, hne, hlt⟩
      have := h o ho
      omega
    · intro h o ho
      by_contra hnot
      exact h ⟨o, ho, by omega, by omega⟩
  rw [decodeCursor_encode, ← hiff]
  cases fromisoformat (isoformat d) <;> simp

/-! ### What a client sends -/

def isStr : Value → Bool
  | .str _ => true
  | _ => false

/-- JSON that is not an object; or whose `c` is there but is not a string; or whose `c` is
a timestamp, while its `i` is there but is not a string. -/
def Misshapen : Value → Prop
  | .obj ms =>
    (∃ c, getItem (word ['c']) ms = some c ∧ isStr c = false) ∨
    ∃ s i, getItem (word ['c']) ms = some (.str s) ∧ (fromisoformat s).isSome ∧
      getItem (word ['i']) ms = some i ∧ isStr i = false
  | _ => True

def Total (r : Except Exc (DateTime × Uuid)) : Prop := (∃ c, r = .ok c) ∨ r = .error .valueError

/-- Whatever its actions are answered, `p` ends with a page if `cursor` is read as a pair, and
with a 422 if that raises a `ValueError`. -/
def Responds (cursor : String) (p : Prg (Except Exc Response)) : Prop :=
  Prog.Emits (fun _ _ => True) (fun _ _ => True) (fun _ r =>
    (∃ c jobs next, decodeCursor cursor = .ok c ∧ r = .ok ⟨200, .jobs jobs next⟩) ∨
      decodeCursor cursor = .error .valueError ∧ r = .ok ⟨422, .detail "invalid cursor"⟩) [] p

theorem total_decodeCursor {cursor : String} : Total (decodeCursor cursor) ↔
    Total (readCursor cursor) ∨ readCursor cursor = .error .keyError := by
  rw [decodeCursor, Total, Total]
  rcases readCursor cursor with exc | c
  · cases exc <;> simp
  · simp

def readMembers (data : Value) : Except Exc (DateTime × Uuid) := do
  let createdAt ← datetimeFromisoformat (← subscript data (word ['c']))
  let jobId ← makeUuid (← subscript data (word ['i']))
  .ok (createdAt, jobId)

theorem readCursor_eq (cursor : String) :
    readCursor cursor = (cursorData cursor).elim (.error .valueError) readMembers := by
  rw [readCursor]
  cases cursorData cursor <;> rfl

theorem readMembers_obj (ms : List (Text × Value)) :
    Total (readMembers (.obj ms)) ∨ readMembers (.obj ms) = .error .keyError ↔
      ¬ Misshapen (.obj ms) := by
  cases hc : getItem (word ['c']) ms with
  | none => simp [readMembers, subscript, hc, Misshapen, bind, Except.bind]
  | some c =>
    cases c with
    | str s =>
      cases hs : fromisoformat s with
      | none =>
        simp [readMembers, subscript, datetimeFromisoformat, hc, hs, Misshapen, isStr, Total, bind,
          Except.bind]
      | some d =>
        cases hi : getItem (word ['i']) ms with
        | none =>
          simp [readMembers, subscript, datetimeFromisoformat, hc, hs, hi, Misshapen, isStr, bind,
            Except.bind]
        | some i =>
          cases i with
          | str u =>
            cases hu : Codec.Uuid.parse u <;>
              simp [readMembers, subscript, datetimeFromisoformat, makeUuid, hc, hs, hi, hu, Misshapen,
                isStr, Total, bind, Except.bind]
          | _ =>
            simp [readMembers, subscript, datetimeFromisoformat, makeUuid, hc, hs, hi, Misshapen,
              isStr, Total, bind, Except.bind]
    | _ =>
      simp [readMembers, subscript, datetimeFromisoformat, hc, Misshapen, isStr, Total, bind,
        Except.bind]

theorem total_decodeCursor_iff (cursor : String) : Total (decodeCursor cursor) ↔
    ∀ data, cursorData cursor = some data → ¬ Misshapen data := by
  rw [total_decodeCursor, readCursor_eq]
  cases hd : cursorData cursor with
  | none => simp [Total]
  | some data =>
    simp only [Option.elim_some, Option.some.injEq, forall_eq']
    cases data with
    | obj ms => exact readMembers_obj ms
    | _ => simp [readMembers, subscript, Misshapen, Total, bind, Except.bind]

/-- The route hands on exactly the exceptions of `decode_cursor` other than a `ValueError`. -/
theorem responds_listJobsRoute (app : App) (user : Uuid) (status : Option JobStatus)
    (type : Option JobType) (priority : Option JobPriority) (limit : Nat) (cursor : String) :
    Responds cursor (listJobsRoute app user status type priority limit (some cursor)) ↔
      Total (decodeCursor cursor) := by
  rw [listJobsRoute, cursorBound, Responds]
  rcases decodeCursor cursor with exc | c
  · cases exc <;> simp [Except.map, Total]
  · simp [Except.map, Total]

/-- A cursor that is written is read back unless the offset of its timestamp is under a
second; a cursor that is sent leads to a pair or to a `ValueError`, and the route to a page
or to a 422, unless its JSON is misshapen. -/
theorem decodeCursor_exact (d : DateTime) (i : Uuid) (cursor : String) :
    (decodeCursor (encodeCursor d i) = .ok (d, i) ↔ ¬ OffsetUnderSecond d) ∧
    ((Total (decodeCursor cursor) ∧
        ∀ (app : App) (user : Uuid) (status : Option JobStatus) (type : Option JobType)
          (priority : Option JobPriority) (limit : Nat),
          Responds cursor (listJobsRoute app user status type priority limit (some cursor))) ↔
      ∀ data, cursorData cursor = some data → ¬ Misshapen data) := by
  refine ⟨decodeCursor_encode_iff d i, ?_⟩
  rw [← total_decodeCursor_iff]
  simp only [responds_listJobsRoute]
  exact ⟨fun h => h.1, fun h => ⟨h, fun _ _ _ _ _ _ => h⟩⟩

theorem aheadOfUtc_ok : Fields.ok ⟨2026, 6, 30, 12, 0, 0, 0, some 1⟩ = true := by decide

/-- Noon in a zone one microsecond ahead of UTC. -/
def aheadOfUtc : DateTime := ⟨⟨2026, 6, 30, 12, 0, 0, 0, some 1⟩, aheadOfUtc_ok⟩

/-- A cursor with the text of the number 5, and a timestamp that does not come back. -/
theorem decodeCursor_five : cursorData "NQ==" = some (.int 5) ∧
    decodeCursor "NQ==" = .error .typeError ∧ ¬ Total (decodeCursor "NQ==") ∧
    decodeCursor (encodeCursor aheadOfUtc 7) ≠ .ok (aheadOfUtc, 7) := by
  have htext : ofString "NQ==" = word ['N', 'Q', '=', '='] := by simp [ofString, word]
  have hdata : cursorData "NQ==" = some (.int 5) := by
    rw [cursorData, htext]
    rfl
  have hdecode : decodeCursor "NQ==" = .error .typeError := by
    rw [decodeCursor, readCursor_eq, hdata]
    rfl
  refine ⟨hdata, hdecode, by simp [hdecode, Total], fun h => ?_⟩
  exact (decodeCursor_encode_iff aheadOfUtc 7).1 h ⟨1, rfl, by decide, by decide⟩

end JobProcessor
