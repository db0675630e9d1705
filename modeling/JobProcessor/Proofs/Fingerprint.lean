import JobProcessor.Model.Idempotency

/-! The bytes behind an idempotency fingerprint separate exactly the different
requests: another type, or a payload that is another JSON value. -/

namespace JobProcessor

open Codec Codec.Unicode Codec.Json

theorem JobType.value_inj {t t' : JobType} (h : t.value = t'.value) : t = t' := by
  revert h
  cases t <;> cases t' <;> decide

theorem JobType.value_scalar (t : JobType) : ∀ c ∈ t.value, IsScalar c := by
  cases t <;> simp only [IsScalar] <;> decide

theorem SubmittedPayload.json_sound (p : SubmittedPayload) : p.json.toValue.Sound := p.sound

theorem keys_ne : word ['t', 'y', 'p', 'e'] ≠ word ['p', 'a', 'y', 'l', 'o', 'a', 'd'] := by decide

/-- The two members that are hashed. -/
def envelope (jobType : JobType) (payload : Json) : List (Text × Value) :=
  [(word ['t', 'y', 'p', 'e'], .str jobType.value),
    (word ['p', 'a', 'y', 'l', 'o', 'a', 'd'], payload.toValue)]

theorem envelope_sound (t : JobType) {p : Json} (hp : p.toValue.Sound) :
    (Value.obj (envelope t p)).Sound := by
  refine ⟨by simp [envelope, keys_ne], (soundMembers_iff _).2 ?_⟩
  intro m hm
  simp only [envelope, List.mem_cons, List.not_mem_nil, or_false] at hm
  rcases hm with rfl | rfl
  · exact ⟨by simp only [IsScalar]; decide, t.value_scalar⟩
  · exact ⟨by simp only [IsScalar]; decide, hp⟩

/-- Members stand under different keys, so they are compared one by one. -/
theorem envelope_alike {t t' : JobType} {p p' : Json} :
    Alike (.obj (envelope t p)) (.obj (envelope t' p')) ↔
      t = t' ∧ Alike p.toValue p'.toValue := by
  constructor
  · intro h
    cases h with
    | @obj _ ms₁ _ hperm hmembers =>
      cases hmembers with
      | cons htype hrest =>
        cases hrest with
        | cons hpayload hnil =>
          cases hnil
          rename_i v w
          have hv : ((word ['t', 'y', 'p', 'e'], v) : Text × Value) ∈ envelope t p :=
            hperm.mem_iff.2 (by simp)
          have hw : ((word ['p', 'a', 'y', 'l', 'o', 'a', 'd'], w) : Text × Value) ∈ envelope t p :=
            hperm.mem_iff.2 (by simp)
          simp only [envelope, List.mem_cons, Prod.mk.injEq, List.not_mem_nil, or_false, true_and,
            keys_ne, keys_ne.symm, false_and, false_or] at hv hw
          subst hv
          subst hw
          exact ⟨JobType.value_inj htype.str_eq, hpayload⟩
  · rintro ⟨rfl, h⟩
    exact .obj (.refl _) (.cons (.str _) (.cons h .nil))

theorem canonicalBlob_eq (t : JobType) {p : Json} (hp : p.toValue.Sound) :
    canonicalBlob t p = dumps [] (Value.obj (envelope t p)).sorted :=
  encodeUtf8_ascii _ (dumps_lt (by simp) _ (sound_sorted _ (envelope_sound t hp)))

/-- Two submissions have the same bytes exactly if they are of one type and their
payloads are the same JSON value, the order of members aside. -/
theorem canonicalBlob_iff (t t' : JobType) (p p' : SubmittedPayload) :
    canonicalBlob t p.json = canonicalBlob t' p'.json ↔
      t = t' ∧ Alike p.json.toValue p'.json.toValue := by
  rw [canonicalBlob_eq t p.json_sound, canonicalBlob_eq t' p'.json_sound,
    dumps_sorted_iff (by simp) (envelope_sound t p.json_sound) (envelope_sound t' p'.json_sound),
    envelope_alike]

/-- `{"rate": 2.5, "items": [null, {"to": "é", "id": -3}]}`. -/
def nestedPayload : SubmittedPayload where
  members := [("rate", .float "2.5"),
    ("items", .arr [.null, .obj [("to", .str "é"), ("id", .int (-3))]])]
  sound := by
    refine ⟨by decide +kernel, ofString_scalar _, by rfl, ofString_scalar _, ⟨trivial, ?_⟩, trivial⟩
    exact ⟨⟨by decide +kernel, ofString_scalar _, ofString_scalar _, ofString_scalar _, trivial,
      trivial⟩, trivial⟩

def reorderedPayload : SubmittedPayload where
  members := [("items", .arr [.null, .obj [("id", .int (-3)), ("to", .str "é")]]),
    ("rate", .float "2.5")]
  sound := by
    refine ⟨by decide +kernel, ofString_scalar _, ⟨trivial, ?_⟩, ofString_scalar _, by rfl, trivial⟩
    exact ⟨⟨by decide +kernel, ofString_scalar _, trivial, ofString_scalar _, ofString_scalar _,
      trivial⟩, trivial⟩

theorem canonicalBlob_iff_reordered :
    canonicalBlob .batch nestedPayload.json = canonicalBlob .batch reorderedPayload.json ∧
      canonicalBlob .batch nestedPayload.json ≠ canonicalBlob .report reorderedPayload.json := by
  constructor
  · refine (canonicalBlob_iff .batch .batch nestedPayload reorderedPayload).2 ⟨rfl, ?_⟩
    have hitem : Alike (Json.obj [("to", .str "é"), ("id", .int (-3))]).toValue
        (Json.obj [("id", .int (-3)), ("to", .str "é")]).toValue :=
      .obj (.swap _ _ _) (.cons (.int _) (.cons (.str _) .nil))
    exact .obj (.swap _ _ _) (.cons (.arr (.cons .null (.cons hitem .nil))) (.cons (.float _) .nil))
  · intro h
    cases ((canonicalBlob_iff .batch .report nestedPayload reorderedPayload).1 h).1

end JobProcessor
