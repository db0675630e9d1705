import JobProcessor.Proofs.Auth

/-! An admitted user is remembered: until its time to live is over, an entry of the token
cache goes only when the bound's worth of other tokens has been stored behind it. -/

namespace JobProcessor.Auth

open Interleave Prog Store

/-! ### The cache alone -/

namespace TokenCache

variable {max : Int} {entries entries' : Entries} {ttl : Time} {k h : String} {ks : Finset String}

/-- While `k` has too few keys behind it to fill the cache, the loop ends before `k`. -/
theorem evictLoop_keeps (hfew : ((insert h ks).card : Int) < max) (hnew : entries.get? h = none)
    (hb : entries.Behind k ks) {fuel : Nat} {r : Except Raised Unit}
    (hrun : evictLoop max fuel entries = some (entries', r)) :
    entries'.Behind k ks ∧ entries'.get? k = entries.get? k := by
  induction fuel generalizing entries with
  | zero =>
    unfold evictLoop at hrun
    split at hrun
    · cases hrun
    · cases hrun
      exact ⟨hb, rfl⟩
  | succ fuel ih =>
    unfold evictLoop at hrun
    split at hrun
    · rename_i hfull
      cases hold : entries.oldest? with
      | none =>
        simp only [hold, Option.some.injEq, Prod.mk.injEq] at hrun
        obtain ⟨rfl, -⟩ := hrun
        exact ⟨hb, rfl⟩
      | some key =>
        simp only [hold] at hrun
        have hne : key ≠ k := by
          rintro rfl
          have hsize := hb.size_le hold
          have hsub : insert h (ks.filter fun k' => (entries.get? k').isSome) ⊆ insert h ks :=
            Finset.insert_subset_insert _ (Finset.filter_subset _ _)
          have hcard := Finset.card_le_card hsub
          rw [Finset.card_insert_of_notMem (by simp [hnew])] at hcard
          omega
        have hkeeps : ∀ v, entries.get? k = some v → decide (k ≠ key) = true :=
          fun _ _ => decide_eq_true (Ne.symm hne)
        obtain ⟨hb', hget⟩ := ih (Dict.get?_filter_none hnew) (hb.filter hkeeps) hrun
        refine ⟨hb', hget.trans ?_⟩
        cases hk : entries.get? k with
        | none => exact Dict.get?_filter_none hk
        | some v => exact Dict.get?_filter_of hk (hkeeps v hk)
    · cases hrun
      exact ⟨hb, rfl⟩

/-- What `k` had: an entry that lasts until `deadline` at least, and only `ks` behind it. -/
structure Kept (entries : Entries) (k : String) (ks : Finset String) (deadline : Time) : Prop where
  behind : entries.Behind k ks
  lasts : ∃ expiresAt user, entries.get? k = some (expiresAt, user) ∧ deadline ≤ expiresAt

variable {deadline now now₁ now₂ : Time}

theorem Kept.get (hk : Kept entries k ks deadline) (hnow : now < deadline) (h : String) :
    Kept (get entries now h).1 k ks deadline := by
  unfold TokenCache.get
  split
  · exact hk
  · rename_i exp user hget
    split
    · rename_i hexpired
      obtain ⟨exp', user', hk', hle⟩ := hk.lasts
      have hne : k ≠ h := by
        rintro rfl
        rw [hk', Option.some.injEq, Prod.mk.injEq] at hget
        exact absurd (hnow.trans_le (hle.trans (hget.1 ▸ hexpired))) (Int.lt_irrefl _)
      exact ⟨hk.behind.filter fun _ _ => decide_eq_true hne, exp', user',
        Dict.get?_filter_of hk' (decide_eq_true hne), hle⟩
    · exact hk

theorem Kept.found (hk : Kept entries k ks deadline) (hnow : now < deadline) :
    ∃ user, (TokenCache.get entries now k).2 = some user := by
  obtain ⟨exp, user, hget, hle⟩ := hk.lasts
  refine ⟨user, ?_⟩
  unfold TokenCache.get
  simp only [hget]
  rw [if_neg (Int.not_le.2 (hnow.trans_le hle))]

theorem Kept.evict (hk : Kept entries k ks deadline) (hnow : now < deadline)
    (hfew : ((insert h ks).card : Int) < max) (hnew : entries.get? h = none) {fuel : Nat}
    {r : Except Raised Unit} (hrun : evict max fuel now entries = some (entries', r)) :
    Kept entries' k ks deadline := by
  obtain ⟨exp, user, hget, hle⟩ := hk.lasts
  have hlive : (!decide (exp ≤ now)) = true := by
    rw [Bool.not_eq_true', decide_eq_false_iff_not, Int.not_le]
    exact hnow.trans_le hle
  have hstays : ∀ v, entries.get? k = some v → (!decide (v.1 ≤ now)) = true := by
    intro v hv
    rw [hget, Option.some.injEq] at hv
    rw [← hv]
    exact hlive
  obtain ⟨hb, hsame⟩ := evictLoop_keeps hfew (Dict.get?_filter_none hnew)
    (hk.behind.filter hstays) hrun
  exact ⟨hb, exp, user, hsame.trans (Dict.get?_filter_of hget hlive), hle⟩

/-- Another entry goes behind it; its own is renewed where it stands. -/
theorem Kept.put (hk : Kept entries k ks deadline) (httl : 0 < ttl) (hnow : now₁ < deadline)
    (hlater : deadline ≤ now₂ + ttl) (hfew : (((insert h ks).erase k).card : Int) < max)
    {fuel : Nat} {user : AuthedUser} {r : Except Raised Unit}
    (hput : put ttl max fuel now₁ now₂ h user entries = some (entries', r)) :
    Kept entries' k ((insert h ks).erase k) deadline := by
  have hk' : Kept entries k (ks.erase k) deadline := ⟨hk.behind.erase, hk.lasts⟩
  have hset : ∀ d : Entries, Kept d k (ks.erase k) deadline →
      Kept (d.set h (now₂ + ttl, user)) k ((insert h ks).erase k) deadline := by
    intro d hd
    have herase : (insert h (ks.erase k)).erase k = (insert h ks).erase k := by
      ext k'
      simp only [Finset.mem_erase, Finset.mem_insert]
      tauto
    refine ⟨herase ▸ (hd.behind.set h _).erase, ?_⟩
    obtain ⟨exp, user', hget, hle⟩ := hd.lasts
    by_cases hkh : h = k
    · exact ⟨_, _, by rw [Dict.get?_set, if_pos hkh], hlater⟩
    · exact ⟨exp, user', by rw [Dict.get?_set, if_neg hkh, hget], hle⟩
  unfold TokenCache.put at hput
  rw [if_neg (Int.not_le.2 httl)] at hput
  split at hput
  · rename_i hfull
    have hnew : entries.get? h = none := Option.isNone_iff_eq_none.1 hfull.1
    have hne : h ≠ k := by
      rintro rfl
      obtain ⟨exp, user', hget, -⟩ := hk.lasts
      rw [hnew] at hget
      cases hget
    rw [Finset.erase_insert_of_ne hne] at hfew
    cases hev : TokenCache.evict max fuel now₁ entries with
    | none => simp [hev] at hput
    | some x =>
      obtain ⟨d, r'⟩ := x
      have hd := hk'.evict hnow hfew hnew hev
      cases r' with
      | error exc =>
        simp only [hev, Option.some.injEq, Prod.mk.injEq] at hput
        rw [← hput.1]
        exact ⟨hd.behind.mono (Finset.erase_subset_erase _ (Finset.subset_insert _ _)), hd.lasts⟩
      | ok u =>
        simp only [hev, Option.some.injEq, Prod.mk.injEq] at hput
        rw [← hput.1]
        exact hset d hd
  · simp only [Option.some.injEq, Prod.mk.injEq] at hput
    rw [← hput.1]
    exact hset entries hk'

theorem kept_put_new (hmax : 1 ≤ max) (httl : 0 < ttl) (hnew : entries.get? h = none)
    {user : AuthedUser} {r : Except Raised Unit}
    (hput : put ttl max entries.size now₁ now₂ h user entries = some (entries', r)) :
    Kept entries' h ∅ (now₂ + ttl) := by
  have hset : ∀ d : Entries, d.get? h = none →
      Kept (d.set h (now₂ + ttl, user)) h ∅ (now₂ + ttl) := fun d hd =>
    ⟨Dict.behind_set_new hd _, _, user, by rw [Dict.get?_set, if_pos rfl], Int.le_refl _⟩
  unfold TokenCache.put at hput
  rw [if_neg (Int.not_le.2 httl)] at hput
  split at hput
  · obtain ⟨d, -, hsub, hrun⟩ := evict_ends hmax now₁ entries
    simp only [hrun _ (Nat.le_refl _), Option.some.injEq, Prod.mk.injEq] at hput
    rw [← hput.1]
    refine hset d ?_
    cases hd : d.get? h with
    | none => rfl
    | some v =>
      rw [hsub _ _ hd] at hnew
      cases hnew
  · simp only [Option.some.injEq, Prod.mk.injEq] at hput
    rw [← hput.1]
    exact hset entries hnew

end TokenCache

/-! ### One request -/

section Requests

variable {auth : AuthApp} {token : String}

theorem review_looks {V : (o : AuthOp) → AuthOp.Res o → Prop} (token : String) :
    Uses V (fun o => ∀ k, o ≠ .cacheGet k) (review token) := by
  refine ⟨by simp, fun resp _ => ?_⟩
  cases resp with
  | error type => trivial
  | ok resp =>
    change Emits _ _ _ _ (if resp.statusCode = 401 then _ else _)
    split
    · refine ⟨by simp, fun _ _ => ⟨by simp, fun resp' _ => ?_⟩⟩
      cases resp' <;> trivial
    · trivial

/-- A request looks into the cache once, and one that finds a user does nothing more. -/
theorem getCurrentUser_served (auth : AuthApp) (credentials : Option String) :
    Emits (fun _ _ => True) (fun _ _ => True) (fun h out => ∀ k user,
      (⟨.cacheGet k, some user⟩ : Reply AuthOp AuthOp.Res) ∈ h →
        h = [⟨.cacheGet k, some user⟩] ∧ out = .ok user) [] (getCurrentUser auth credentials) := by
  cases credentials with
  | none => exact fun _ _ h => (by cases h)
  | some token =>
    refine ⟨trivial, fun cached _ => ?_⟩
    cases cached with
    | some user =>
      intro k user' hmem
      rw [List.mem_singleton] at hmem
      cases hmem
      exact ⟨rfl, rfl⟩
    | none =>
      -- after a miss nothing is looked up, so nothing is found
      refine Emits.mono (Emits.of_uses (A := fun o => ∀ k, o ≠ .cacheGet k)
        (I := fun h => ∀ k user, (⟨.cacheGet k, some user⟩ : Reply AuthOp AuthOp.Res) ∉ h)
        (P := fun _ _ => True) ?_ (fun _ _ _ _ => trivial) ?_ ?_) (fun _ _ h => h)
        fun h out hno k user hmem => absurd hmem (hno k user)
      · change Uses _ _ (review token >>= _)
        refine Uses.bind (review_looks token) fun r => ?_
        cases r with
        | error exc => cases exc <;> trivial
        | ok reviewed =>
          cases reviewed with
          | none => trivial
          | some reviewed =>
            change Uses _ _ (if _ then _ else _)
            split
            · trivial
            · cases huid : parseUid auth reviewed.uid with
              | error exc => cases exc <;> trivial
              | ok uid =>
                refine Uses.act (by simp) fun stored _ => ?_
                cases stored <;> trivial
      · intro h o r _ hno ho k user hmem
        rcases List.mem_cons.1 hmem with heq | hmem
        · cases heq
          exact ho k rfl
        · exact hno k user hmem
      · intro k user hmem
        rw [List.mem_singleton] at hmem
        cases hmem

end Requests

/-! ### Runs -/

section Runs

variable {auth : AuthApp} {start : Time} {saToken : Option String} {c c₁ c' : AuthCfg}

/-- The hashes under which something was stored in a log. -/
def storedHashes : List AuthEv → Finset String
  | [] => ∅
  | .act _ (.cachePut h _) _ :: l => insert h (storedHashes l)
  | _ :: l => storedHashes l

/-- The other tokens, by their hashes, for which something was stored. -/
def others (k : String) (l : List AuthEv) : Finset String := (storedHashes l).erase k

theorem exec_keeps {o : AuthOp} {e : AuthEnv} {w w' : AuthWorld} {r : o.Res} {k : String}
    {l : List AuthEv} {deadline : Time} {pid : Nat} (httl : 0 < auth.authCacheTtlS)
    (h : exec auth o e w = some (w', r)) (hk : TokenCache.Kept w.entries k (others k l) deadline)
    (hfew : ((others k (.act pid o r :: l)).card : Int) < auth.maxEntries)
    (hnow : w'.clock < deadline) (hlater : deadline ≤ w'.clock + auth.authCacheTtlS) :
    TokenCache.Kept w'.entries k (others k (.act pid o r :: l)) deadline := by
  cases o with
  | cacheGet h' =>
    simp only [exec, Option.some.injEq, Prod.mk.injEq] at h
    obtain ⟨rfl, -⟩ := h
    exact hk.get hnow h'
  | post t =>
    simp only [exec, Option.some.injEq, Prod.mk.injEq] at h
    obtain ⟨rfl, -⟩ := h
    exact hk
  | readSaToken =>
    simp only [exec, Option.some.injEq, Prod.mk.injEq] at h
    obtain ⟨rfl, -⟩ := h
    exact hk
  | cachePut h' v =>
    simp only [exec, Option.map_eq_some_iff, Prod.mk.injEq] at h
    obtain ⟨⟨d, r'⟩, hp, rfl, rfl⟩ := h
    have herase : (insert h' (others k l)).erase k =
        others k (.act pid (.cachePut h' v) r' :: l) := by
      ext k'
      simp only [others, storedHashes, Finset.mem_erase, Finset.mem_insert]
      tauto
    rw [← herase] at hfew ⊢
    exact hk.put httl (Int.lt_of_le_of_lt (Int.le_add_of_nonneg_right (Int.natCast_nonneg _)) hnow)
      hlater hfew hp

theorem exec_clock {o : AuthOp} {e : AuthEnv} {w w' : AuthWorld} {r : o.Res}
    (h : exec auth o e w = some (w', r)) : w.clock ≤ w'.clock := by
  have hadd : ∀ (t : Time) (n : Nat), t ≤ t + n := fun t n =>
    Int.le_add_of_nonneg_right (Int.natCast_nonneg n)
  cases o with
  | cachePut h' v =>
    simp only [exec, Option.map_eq_some_iff, Prod.mk.injEq] at h
    obtain ⟨x, -, rfl, -⟩ := h
    exact (hadd _ e.elapsed).trans (hadd _ e.evicting)
  | _ =>
    simp only [exec, Option.some.injEq, Prod.mk.injEq] at h
    obtain ⟨rfl, -⟩ := h
    exact hadd _ e.elapsed

theorem others_subset (k : String) (ev : AuthEv) (l : List AuthEv) :
    others k l ⊆ others k (ev :: l) := by
  refine Finset.erase_subset_erase _ ?_
  cases ev with
  | act pid o r =>
    cases o with
    | cachePut h v => exact Finset.subset_insert _ _
    | _ => exact Finset.Subset.refl _
  | _ => exact Finset.Subset.refl _

/-- An entry stays as long as its time to live is not over and it is not crowded out. -/
theorem kept_leads {k : String} (httl : 0 < auth.authCacheTtlS)
    (hk : TokenCache.Kept c₁.shared.world.entries k ∅ (c₁.shared.world.clock + auth.authCacheTtlS))
    (h : Leads (authSystem auth start saToken) c₁ c) :
    c₁.shared.world.clock ≤ c.shared.world.clock ∧ ∃ l, c.shared.log = l ++ c₁.shared.log ∧
      (((others k l).card : Int) < auth.maxEntries →
        c.shared.world.clock < c₁.shared.world.clock + auth.authCacheTtlS →
        TokenCache.Kept c.shared.world.entries k (others k l)
          (c₁.shared.world.clock + auth.authCacheTtlS)) := by
  induction h with
  | refl => exact ⟨Int.le_refl _, [], rfl, fun _ _ => hk⟩
  | @step c c' ch ev _ hs ih =>
    obtain ⟨hclock, l, hlog, hkept⟩ := ih
    obtain ⟨hlog', hworld⟩ := auth_step hs
    refine ⟨?_, ev :: l, by rw [hlog', hlog, List.cons_append], fun hfew hsoon => ?_⟩
    · rcases hworld with ⟨-, o, r, e, -, he⟩ | ⟨hw, -⟩
      · exact hclock.trans (exec_clock he)
      · exact hw ▸ hclock
    · have hfew' : ((others k l).card : Int) < auth.maxEntries :=
        Int.lt_of_le_of_lt (Int.ofNat_le.2 (Finset.card_le_card (others_subset k ev l))) hfew
      rcases hworld with ⟨pid, o, r, e, rfl, he⟩ | ⟨hw, hact⟩
      · have hback := exec_clock he
        exact exec_keeps httl he (hkept hfew' (hback.trans_lt hsoon)) hfew hsoon
          (Int.add_le_add_right (hclock.trans hback) _)
      · rw [hw] at hsoon ⊢
        obtain ⟨hb, hlasts⟩ := hkept hfew' hsoon
        exact ⟨hb.mono (others_subset k ev l), hlasts⟩

/-- The request `pid` comes back for `token` on the way to `c`: in the step from `c₀` to `c₁`
the token was stored, when it was not there; then came `l`, in which fewer other tokens were
stored than fill the cache; and in the step from `c₂` to `c₃` the request looks for the
token, less than the time to live after it was stored. -/
structure ComesBack (auth : AuthApp) (start : Time) (saToken : Option String) (c : AuthCfg)
    (pid : Nat) (token : String) (c₀ c₁ c₂ c₃ : AuthCfg) (l : List AuthEv) : Prop where
  stored : ∃ q user r,
    AuthPassed auth start saToken c₀ (.act q (.cachePut (auth.hashToken token) user) r) c₁ c₂
  anew : c₀.shared.world.entries.get? (auth.hashToken token) = none
  since : c₂.shared.log = l ++ c₁.shared.log
  few : ((others (auth.hashToken token) l).card : Int) < auth.maxEntries
  looks : ∃ found,
    AuthPassed auth start saToken c₂ (.act pid (.cacheGet (auth.hashToken token)) found) c₃ c
  soon : c₃.shared.world.clock - c₁.shared.world.clock < auth.authCacheTtlS

theorem ComesBack.finds {pid : Nat} {token : String} {c₀ c₁ c₂ c₃ : AuthCfg} {l : List AuthEv}
    (hmax : 1 ≤ auth.maxEntries) (httl : 0 < auth.authCacheTtlS)
    (h : ComesBack auth start saToken c pid token c₀ c₁ c₂ c₃ l) :
    ∃ user, .act pid (.cacheGet (auth.hashToken token)) (some user) ∈ c.shared.log ∧
      ∃ c₄ c₅ q l', Stored auth start saToken c₂ (auth.hashToken token) user c₄ c₅ q l' := by
  obtain ⟨q, user, r, hput⟩ := h.stored
  obtain ⟨found, hget⟩ := h.looks
  -- stored in the first step, kept until the second
  obtain ⟨ch, hs⟩ := hput.moves
  obtain ⟨-, ⟨_, o, r', e, heq, he⟩ | ⟨-, hno⟩⟩ := auth_step hs
  · cases heq
    simp only [exec, Option.map_eq_some_iff, Prod.mk.injEq] at he
    obtain ⟨⟨d, r'⟩, hp, hw, -⟩ := he
    have hkept₁ : TokenCache.Kept c₁.shared.world.entries (auth.hashToken token) ∅
        (c₁.shared.world.clock + auth.authCacheTtlS) := by
      rw [← hw]
      exact TokenCache.kept_put_new hmax httl h.anew hp
    obtain ⟨-, l', hlog, hkept⟩ := kept_leads httl hkept₁ hput.leads
    obtain rfl : l = l' := List.append_cancel_right (h.since.symm.trans hlog)
    -- found in the second
    obtain ⟨ch', hs'⟩ := hget.moves
    obtain ⟨-, ⟨_, o, r'', e', heq', he'⟩ | ⟨-, hno⟩⟩ := auth_step hs'
    · cases heq'
      have hback := exec_clock he'
      have hsoon : c₃.shared.world.clock < c₁.shared.world.clock + auth.authCacheTtlS :=
        Int.lt_add_of_sub_left_lt h.soon
      simp only [exec, Option.some.injEq, Prod.mk.injEq] at he'
      obtain ⟨hw', hfound⟩ := he'
      have hkept₂ := hkept h.few (hback.trans_lt hsoon)
      rw [← hw'] at hsoon
      obtain ⟨user', huser⟩ := hkept₂.found hsoon
      rw [hfound] at huser
      subst huser
      obtain ⟨exp, hent, -⟩ := (TokenCache.get_spec _ _ _).2.2 _ hfound
      obtain ⟨-, c₄, c₅, q', l', hst, -⟩ := (entries_stored hmax hget.run).2 _ _ _ hent
      exact ⟨user', hget.suffix.subset List.mem_cons_self, c₄, c₅, q', l', hst⟩
    · exact absurd rfl (hno _ _ _)
  · exact absurd rfl (hno _ _ _)

end Runs

theorem session_remembered (auth : AuthApp) (start : Time) (saToken : Option String)
    (hmax : 1 ≤ auth.maxEntries) (httl : 0 < auth.authCacheTtlS) (c : AuthCfg)
    (hr : Reachable (authSystem auth start saToken) c) (pid : Nat) (token : String)
    (c₀ c₁ c₂ c₃ : AuthCfg) (l : List AuthEv)
    (hback : ComesBack auth start saToken c pid token c₀ c₁ c₂ c₃ l)
    (out : Except AuthExc AuthedUser) (hret : .ret pid out ∈ c.shared.log) :
    ∃ user, out = .ok user ∧
      own pid c.shared.log = [⟨.cacheGet (auth.hashToken token), some user⟩] ∧
      ∃ c₄ c₅ q l', Stored auth start saToken c₂ (auth.hashToken token) user c₄ c₅ q l' := by
  obtain ⟨user, hev, hst⟩ := hback.finds hmax httl
  obtain ⟨_, -, hserved⟩ := hr.answered (fun _ _ _ _ _ _ => trivial) (getCurrentUser_served auth)
    pid out hret
  obtain ⟨hown, hout⟩ := hserved _ _ (mem_own.2 hev)
  exact ⟨user, hout, hown, hst⟩

theorem others_card_le (k : String) (l : List AuthEv) : (others k l).card ≤ l.length := by
  refine (Finset.card_erase_le).trans ?_
  induction l with
  | nil => exact Nat.le_refl _
  | cons ev l ih =>
    cases ev with
    | act pid o r =>
      cases o with
      | cachePut h user => exact (Finset.card_insert_le _ _).trans (Nat.succ_le_succ ih)
      | _ => exact Nat.le_succ_of_le ih
    | _ => exact Nat.le_succ_of_le ih

/-- The steps of `ComesBack` and the return: request 0 stores the token in `c₀`, request 1
comes 30 s later. -/
def comeback (c₀ : AuthCfg) :
    Option ((AuthEv × AuthCfg) × AuthCfg × (AuthEv × AuthCfg) × AuthEv × AuthCfg) := do
  let put ← step (authSystem oneToken 0 none) c₀ (.run 0 {})
  let c₂ ← exec? (authSystem oneToken 0 none) (fun _ _ => true)
    [.run 0 {}, .start (some "t")] put.2
  let look ← step (authSystem oneToken 0 none) c₂ (.run 1 { elapsed := 30000000 })
  let ret ← step (authSystem oneToken 0 none) look.2 (.run 1 {})
  return (put, c₂, look, ret)

def isPut : AuthEv → Bool
  | .act 0 (.cachePut h _) _ => h = oneToken.hashToken "t"
  | _ => false

def isLook : AuthEv → Bool
  | .act 1 (.cacheGet h) _ => h = oneToken.hashToken "t"
  | _ => false

def isRet : AuthEv → Bool
  | .ret 1 _ => true
  | _ => false

def returnsInTime (c₀ : AuthCfg) : Bool :=
  (c₀.shared.world.entries.get? (oneToken.hashToken "t")).isNone && (comeback c₀).any
    fun (put, c₂, look, ret) => isPut put.1 && isLook look.1 && isRet ret.1 &&
      decide (c₂.shared.log.length < 1024) &&
      decide (look.2.shared.world.clock - put.2.shared.world.clock < 60000000)

theorem of_isPut {ev : AuthEv} (h : isPut ev = true) :
    ∃ user r, ev = .act 0 (.cachePut (oneToken.hashToken "t") user) r := by
  unfold isPut at h
  split at h
  · rw [decide_eq_true_eq] at h
    subst h
    exact ⟨_, _, rfl⟩
  · cases h

theorem of_isLook {ev : AuthEv} (h : isLook ev = true) :
    ∃ found, ev = .act 1 (.cacheGet (oneToken.hashToken "t")) found := by
  unfold isLook at h
  split at h
  · rw [decide_eq_true_eq] at h
    subst h
    exact ⟨_, rfl⟩
  · cases h

theorem of_isRet {ev : AuthEv} (h : isRet ev = true) : ∃ out, ev = .ret 1 out := by
  unfold isRet at h
  split at h
  · exact ⟨_, rfl⟩
  · cases h

theorem session_remembered_returnsInTime : ∃ c c₀ c₁ c₂ c₃ l out user,
    Reachable (authSystem oneToken 0 none) c ∧
      ComesBack oneToken 0 none c 1 "t" c₀ c₁ c₂ c₃ l ∧ .ret 1 out ∈ c.shared.log ∧
      out = .ok user ∧ own 1 c.shared.log = [⟨.cacheGet (oneToken.hashToken "t"), some user⟩] := by
  obtain ⟨c₀, hr₀, hp⟩ := reachable_of_schedule oneToken (secondRequest.take 3) returnsInTime
    (by decide +kernel)
  rw [returnsInTime, Bool.and_eq_true, Option.isNone_iff_eq_none, Option.any_eq_true] at hp
  obtain ⟨hnew, x, hsteps, hall⟩ := hp
  simp only [comeback, Option.bind_eq_bind, Option.bind_eq_some_iff, Option.pure_def,
    Option.some.injEq] at hsteps
  obtain ⟨⟨put, c₁⟩, hs₁, c₂, hl₂, ⟨look, c₃⟩, hs₃, ⟨ret, c⟩, hs₄, rfl⟩ := hsteps
  simp only [Bool.and_eq_true, decide_eq_true_eq] at hall
  obtain ⟨⟨⟨⟨hput, hlook⟩, hret⟩, hlen⟩, hsoon⟩ := hall
  obtain ⟨user, r, rfl⟩ := of_isPut hput
  obtain ⟨found, rfl⟩ := of_isLook hlook
  obtain ⟨out, rfl⟩ := of_isRet hret
  have hr₁ := hr₀.step hs₁ trivial
  have hr₂ := Run.exec? (fun _ _ _ => trivial) _ hr₁ hl₂
  have hr₃ := hr₂.step hs₃ trivial
  obtain ⟨l, hlog⟩ := (Leads.exec? _ .refl hl₂).log_suffix
  have hfew : ((others (oneToken.hashToken "t") l).card : Int) < oneToken.maxEntries := by
    have hcard := others_card_le (oneToken.hashToken "t") l
    rw [← hlog, List.length_append] at hlen
    exact Int.ofNat_lt.2 (by omega : (others (oneToken.hashToken "t") l).card < 1024)
  have hback : ComesBack oneToken 0 none c 1 "t" c₀ c₁ c₂ c₃ l :=
    ⟨⟨0, user, r, hr₀, trivial, ⟨_, hs₁⟩, Leads.exec? _ .refl hl₂⟩, hnew, hlog.symm, hfew,
      ⟨found, hr₂, trivial, ⟨_, hs₃⟩, .step .refl hs₄⟩, hsoon⟩
  have hmem : .ret 1 out ∈ c.shared.log := by
    rw [(auth_step hs₄).1]
    exact List.mem_cons_self
  obtain ⟨user', hout, hown, -⟩ := session_remembered oneToken 0 none (by decide) (by decide) c
    (hr₃.step hs₄ trivial) 1 "t" c₀ c₁ c₂ c₃ l hback out hmem
  exact ⟨c, c₀, c₁, c₂, c₃, l, out, user', hr₃.step hs₄ trivial, hback, hmem, hout, hown⟩

end JobProcessor.Auth
