import JobProcessor.Model.Payloads

/-! The allowlists say what they mean: the raw suffix test on dotted strings is the
suffix test on their labels, for every spelling of hosts and entries. -/

namespace JobProcessor

theorem suffix_intercalate {α : Type} (x : α) {pre ls : List (List α)} (hp : pre ≠ [])
    (hl : ls ≠ []) : (x :: [x].intercalate ls) <:+ [x].intercalate (pre ++ ls) := by
  induction pre with
  | nil => exact absurd rfl hp
  | cons l pre ih =>
    rw [List.cons_append, List.intercalate_cons_of_ne_nil (by simp [hl])]
    by_cases hpre : pre = []
    · subst hpre
      exact ⟨l, by simp⟩
    · exact (ih hpre).trans (List.suffix_append _ _)

/-- A text ends in another at a separator boundary exactly when the pieces do. -/
theorem splitOn_suffix_iff {α : Type} [BEq α] [LawfulBEq α] (x : α) (e h : List α) :
    e.splitOn x <:+ h.splitOn x ↔ h = e ∨ (x :: e) <:+ h := by
  constructor
  · rintro ⟨pre, hpre⟩
    by_cases hnil : pre = []
    · rw [hnil, List.nil_append] at hpre
      have hh := congrArg (fun ls => [x].intercalate ls) hpre
      simp only [List.intercalate_splitOn] at hh
      exact .inl hh.symm
    · have hh := suffix_intercalate x hnil (List.splitOn_ne_nil x e)
      rw [hpre, List.intercalate_splitOn, List.intercalate_splitOn] at hh
      exact .inr hh
  · rintro (rfl | ⟨pre, rfl⟩)
    · exact List.suffix_refl _
    · rw [List.splitOn_append_cons_self]
      exact List.suffix_append _ _

namespace Validation

variable (v : Validation)

/-- The labels of a host, trailing dots apart. -/
def hostLabels (host : String) : List (List Char) :=
  (rstripDots (v.lower host).toList).splitOn '.'

/-- The labels of an entry, leading and trailing dots apart. -/
def entryLabels (entry : String) : List (List Char) :=
  (stripDots (v.lower entry).toList).splitOn '.'

def AcceptsItem : PayloadItem → Prop
  | .webhook payload => ∃ entry ∈ v.webhookAllowedHosts,
      v.entryLabels entry <:+ v.hostLabels ((v.urlHost payload).getD "")
  | .email payload => ∃ text, afterAt (v.emailTo payload).toList = some text ∧
      ∃ entry ∈ v.emailAllowedDomains, v.lower (String.ofList text) = v.lower entry
  | .report _ => True

def Accepts : Payload → Prop
  | .item i => v.AcceptsItem i
  | .batch items => ∀ i ∈ items, v.AcceptsItem i

theorem hostAllowed_iff (host : String) (allowed : List String) :
    v.hostAllowed host allowed = true ↔
      ∃ entry ∈ allowed, v.entryLabels entry <:+ v.hostLabels host := by
  unfold hostAllowed entryLabels hostLabels
  simp only [List.any_eq_true, Bool.or_eq_true, decide_eq_true_eq, List.isSuffixOf_iff_suffix,
    splitOn_suffix_iff]

theorem checkItem_iff (i : PayloadItem) : v.checkItem i = .ok () ↔ v.AcceptsItem i := by
  cases i with
  | webhook payload =>
    rw [AcceptsItem, ← hostAllowed_iff]
    simp only [checkItem]
    split
    · rename_i h
      exact iff_of_true rfl h
    · rename_i h
      exact iff_of_false (by simp) h
  | email payload =>
    simp only [checkItem, AcceptsItem]
    split
    · rename_i h
      simp [h]
    · rename_i text h
      simp only [h, Option.some.injEq, exists_eq_left', List.mem_map]
      split
      · rename_i hm
        obtain ⟨entry, he, heq⟩ := hm
        exact iff_of_true rfl ⟨entry, he, heq.symm⟩
      · rename_i hm
        refine iff_of_false (by simp) ?_
        rintro ⟨entry, he, heq⟩
        exact hm ⟨entry, he, heq.symm⟩
  | report payload => exact iff_of_true rfl trivial

theorem checkItems_iff (items : List PayloadItem) :
    items.forM v.checkItem = .ok () ↔ ∀ i ∈ items, v.AcceptsItem i := by
  induction items with
  | nil => exact iff_of_true rfl (by simp)
  | cons i items ih =>
    rw [List.forall_mem_cons, ← ih, ← checkItem_iff]
    change (v.checkItem i >>= fun _ => items.forM v.checkItem) = .ok () ↔ _
    cases h : v.checkItem i with
    | error exc => exact iff_of_false (by intro h; cases h) (by simp)
    | ok u => exact (and_iff_right rfl).symm

theorem checkPolicy_iff (payload : Payload) : v.checkPolicy payload = .ok () ↔ v.Accepts payload := by
  cases payload with
  | item i => exact v.checkItem_iff i
  | batch items => exact v.checkItems_iff items

theorem AcceptsItem.mono {hosts domains : List String} (hh : v.webhookAllowedHosts ⊆ hosts)
    (hd : v.emailAllowedDomains ⊆ domains) {i : PayloadItem} (h : v.AcceptsItem i) :
    { v with webhookAllowedHosts := hosts, emailAllowedDomains := domains }.AcceptsItem i := by
  cases i with
  | webhook payload =>
    obtain ⟨entry, he, hs⟩ := h
    exact ⟨entry, hh he, hs⟩
  | email payload =>
    obtain ⟨text, ht, entry, he, hs⟩ := h
    exact ⟨text, ht, entry, hd he, hs⟩
  | report payload => exact trivial

theorem Accepts.mono {hosts domains : List String} (hh : v.webhookAllowedHosts ⊆ hosts)
    (hd : v.emailAllowedDomains ⊆ domains) {payload : Payload} (h : v.Accepts payload) :
    { v with webhookAllowedHosts := hosts, emailAllowedDomains := domains }.Accepts payload := by
  cases payload with
  | item i => exact AcceptsItem.mono v hh hd h
  | batch items => exact fun i hi => AcceptsItem.mono v hh hd (h i hi)

/-- `_check_policy` accepts exactly what the allowlists say: with an empty list nothing of
its kind, with more entries no less, and by no entry a host that is neither equal to it
nor below it. -/
theorem checkPolicy_exact (v : Validation) :
    (∀ payload, v.checkPolicy payload = .ok () ↔ v.Accepts payload) ∧
    (v.webhookAllowedHosts = [] → ∀ payload, v.checkPolicy (.item (.webhook payload)) ≠ .ok ()) ∧
    (v.emailAllowedDomains = [] → ∀ payload, v.checkPolicy (.item (.email payload)) ≠ .ok ()) ∧
    (∀ hosts domains, v.webhookAllowedHosts ⊆ hosts → v.emailAllowedDomains ⊆ domains →
      ∀ payload, v.checkPolicy payload = .ok () →
        { v with webhookAllowedHosts := hosts, emailAllowedDomains := domains }.checkPolicy
          payload = .ok ()) ∧
    ∀ entry host, v.hostAllowed host [entry] = true →
      rstripDots (v.lower host).toList = stripDots (v.lower entry).toList ∨
        ∃ sub, sub ≠ [] ∧ v.hostLabels host = sub ++ v.entryLabels entry := by
  refine ⟨v.checkPolicy_iff, ?_, ?_, ?_, ?_⟩
  · intro hnil payload h
    obtain ⟨entry, he, -⟩ := (v.checkPolicy_iff _).1 h
    rw [hnil] at he
    cases he
  · intro hnil payload h
    obtain ⟨text, -, entry, he, -⟩ := (v.checkPolicy_iff _).1 h
    rw [hnil] at he
    cases he
  · intro hosts domains hh hd payload h
    exact (checkPolicy_iff _ payload).2 (Accepts.mono v hh hd ((v.checkPolicy_iff payload).1 h))
  · intro entry host h
    obtain ⟨entry', he, sub, hs⟩ := (v.hostAllowed_iff host [entry]).1 h
    rw [List.mem_singleton] at he
    subst he
    by_cases hsub : sub = []
    · left
      rw [hsub, List.nil_append] at hs
      have hj := congrArg (fun ls => ['.'].intercalate ls) hs
      simp only [entryLabels, hostLabels, List.intercalate_splitOn] at hj
      exact hj.symm
    · exact .inr ⟨sub, hsub, hs.symm⟩

end Validation

/-- One allowed host, spelt with dots around it. -/
def oneHost : Validation where
  webhookAllowedHosts := [".Hooks.example."]
  adapter _ payload := .ok (.item (.webhook payload))
  urlHost payload := match payload with
    | .str s => some s
    | _ => none
  emailTo _ := "a@b"
  lower s := String.ofList (s.toList.map Char.toLower)
  showRepr s := s

theorem checkPolicy_oneHost :
    oneHost.checkPolicy (.item (.webhook (.str "a.hooks.Example."))) = .ok () ∧
      oneHost.checkPolicy (.item (.webhook (.str "evilhooks.example"))) ≠ .ok () ∧
      oneHost.checkPolicy (.item (.email .null)) ≠ .ok () := by
  obtain ⟨hiff, -, hemail, -, -⟩ := oneHost.checkPolicy_exact
  refine ⟨(hiff _).2 ⟨".Hooks.example.", List.mem_singleton.2 rfl, [['a']], by decide⟩, ?_,
    hemail rfl .null⟩
  intro h
  obtain ⟨entry, he, hs⟩ := (hiff _).1 h
  rw [List.mem_singleton.1 he] at hs
  revert hs
  decide

end JobProcessor
