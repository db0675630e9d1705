import JobProcessor.Model.Auth

/-! The token cache is bounded, and nobody is admitted without a review that is recent
enough. -/

namespace JobProcessor.Auth

open Interleave Prog Store

/-! ### The cache alone -/

namespace TokenCache

variable {max : Int} {entries : Entries} {ttl : Time}

/-- The loop deletes one entry a round, so it ends, and below the bound. -/
theorem evictLoop_ends (hmax : 1 ≤ max) (entries : Entries) :
    ∃ entries', (entries'.size : Int) < max ∧ (∀ k v, entries'.get? k = some v →
      entries.get? k = some v) ∧
      ∀ fuel, entries.size ≤ fuel → evictLoop max fuel entries = some (entries', .ok ()) := by
  induction hn : entries.size generalizing entries with
  | zero =>
    refine ⟨entries, by omega, fun _ _ h => h, fun fuel _ => ?_⟩
    unfold evictLoop
    rw [if_neg (by omega)]
  | succ n ih =>
    by_cases hfull : max ≤ entries.size
    · obtain ⟨key, hkey⟩ := Dict.oldest?_isSome (d := entries) (by omega)
      have hsize := Dict.size_erase_oldest hkey
      obtain ⟨entries', hlt, hsub, hrun⟩ := ih (entries.erase key) (by omega)
      refine ⟨entries', hlt, fun k v h => Dict.get?_filter (hsub k v h), fun fuel hf => ?_⟩
      obtain ⟨fuel, rfl⟩ : ∃ m, fuel = m + 1 := ⟨fuel - 1, by omega⟩
      unfold evictLoop
      rw [if_pos hfull]
      simp only [hkey]
      exact hrun fuel (by omega)
    · refine ⟨entries, by omega, fun _ _ h => h, fun fuel _ => ?_⟩
      unfold evictLoop
      rw [if_neg hfull]

theorem evict_ends (hmax : 1 ≤ max) (now : Time) (entries : Entries) :
    ∃ entries', (entries'.size : Int) < max ∧ (∀ k v, entries'.get? k = some v →
      entries.get? k = some v) ∧
      ∀ fuel, entries.size ≤ fuel → evict max fuel now entries = some (entries', .ok ()) := by
  obtain ⟨entries', hlt, hsub, hrun⟩ :=
    evictLoop_ends hmax (entries.filter fun e => !decide (e.2.1 ≤ now))
  refine ⟨entries', hlt, fun k v h => Dict.get?_filter (hsub k v h), fun fuel hf => ?_⟩
  exact hrun fuel ((Dict.size_filter_le _ _).trans hf)

theorem put_spec (now₁ now₂ : Time) (h : String) (user : AuthedUser) (hmax : 1 ≤ max)
    (httl : 0 < ttl) (hsize : (entries.size : Int) ≤ max) :
    ∃ entries', put ttl max entries.size now₁ now₂ h user entries = some (entries', .ok ()) ∧
      (entries'.size : Int) ≤ max ∧ entries'.get? h = some (now₂ + ttl, user) ∧
      ∀ k v, k ≠ h → entries'.get? k = some v → entries.get? k = some v := by
  have hset : ∀ d : Entries, (∀ k v, d.get? k = some v → entries.get? k = some v) →
      (d.set h (now₂ + ttl, user)).get? h = some (now₂ + ttl, user) ∧
      ∀ k v, k ≠ h → (d.set h (now₂ + ttl, user)).get? k = some v → entries.get? k = some v := by
    intro d hd
    refine ⟨by rw [Dict.get?_set, if_pos rfl], fun k v hk hg => ?_⟩
    rw [Dict.get?_set, if_neg (Ne.symm hk)] at hg
    exact hd k v hg
  unfold put
  rw [if_neg (Int.not_le.2 httl)]
  split
  · obtain ⟨d, hlt, hsub, hrun⟩ := evict_ends hmax now₁ entries
    rw [hrun _ (Nat.le_refl _)]
    refine ⟨_, rfl, ?_, hset d hsub⟩
    have := Dict.size_set d h (now₂ + ttl, user)
    split at this <;> omega
  · rename_i hroom
    refine ⟨_, rfl, ?_, hset entries fun _ _ hg => hg⟩
    have := Dict.size_set entries h (now₂ + ttl, user)
    cases hg : entries.get? h with
    | some v =>
      rw [hg] at this
      simp only [Option.isSome_some, if_true] at this
      omega
    | none =>
      rw [hg] at this hroom
      simp only [Option.isSome_none, Bool.false_eq_true, if_false] at this
      simp only [Option.isNone_none, true_and] at hroom
      omega

theorem get_spec (entries : Entries) (now : Time) (h : String) :
    (get entries now h).1.size ≤ entries.size ∧
      (∀ k v, (get entries now h).1.get? k = some v → entries.get? k = some v) ∧
      ∀ u, (get entries now h).2 = some u → ∃ exp, entries.get? h = some (exp, u) ∧ now < exp := by
  unfold get
  split
  · exact ⟨Nat.le_refl _, fun _ _ hg => hg, fun u hu => (nomatch hu)⟩
  · rename_i exp u hg
    split
    · exact ⟨Dict.size_filter_le _ _, fun _ _ => Dict.get?_filter, fun u hu => (nomatch hu)⟩
    · rename_i hlt
      refine ⟨Nat.le_refl _, fun _ _ hg => hg, fun u' hu => ?_⟩
      cases hu
      exact ⟨exp, hg, Int.not_le.1 hlt⟩

end TokenCache

/-! ### One request -/

section Requests

variable {auth : AuthApp} {token : String} {user : AuthedUser}

abbrev AuthHist := List (Reply AuthOp AuthOp.Res)

/-- A review of `token` among the replies `h` came back authenticated, with the required
group and the uid of `user`. -/
def Reviewed (auth : AuthApp) (token : String) (user : AuthedUser) (h : AuthHist) : Prop :=
  ∃ resp reviewed, (⟨.post token, .ok resp⟩ : Reply AuthOp AuthOp.Res) ∈ h ∧
    readReview resp = .ok (some reviewed) ∧
    inGroup auth.authRequiredGroup reviewed.groups = true ∧
    parseUid auth reviewed.uid = .ok user.id

def requestIssues (auth : AuthApp) (credentials : Option String) (h : AuthHist) : AuthOp → Prop
  | .cacheGet k => ∃ token, credentials = some token ∧ k = auth.hashToken token
  | .cachePut k user => ∃ token, credentials = some token ∧ k = auth.hashToken token ∧
    Reviewed auth token user h
  | _ => True

def requestReturns (auth : AuthApp) (credentials : Option String) (h : AuthHist)
    (out : Except AuthExc AuthedUser) : Prop :=
  ∀ user, out = .ok user → ∃ token, credentials = some token ∧
    (Reviewed auth token user h ∨
      (⟨.cacheGet (auth.hashToken token), some user⟩ : Reply AuthOp AuthOp.Res) ∈ h)

theorem review_emits {credentials : Option String} (h : AuthHist) :
    Emits (fun _ _ => True) (requestIssues auth credentials)
      (fun g r => ∀ reviewed, r = .ok (some reviewed) → ∃ resp,
        (⟨.post token, .ok resp⟩ : Reply AuthOp AuthOp.Res) ∈ g ∧
          readReview resp = .ok (some reviewed)) h (review token) := by
  refine ⟨trivial, fun resp _ => ?_⟩
  cases resp with
  | error type => exact fun _ hr => nomatch hr
  | ok resp =>
    change Emits _ _ _ _ (if resp.statusCode = 401 then _ else _)
    split
    · refine ⟨trivial, fun _ _ => ⟨trivial, fun resp' _ => ?_⟩⟩
      cases resp' with
      | error type => exact fun _ hr => nomatch hr
      | ok resp' => exact fun _ hr => ⟨resp', List.mem_cons_self, hr⟩
    · exact fun _ hr => ⟨resp, List.mem_cons_self, hr⟩

theorem getCurrentUser_emits (auth : AuthApp) (credentials : Option String) :
    Emits (fun _ _ => True) (requestIssues auth credentials) (requestReturns auth credentials) []
      (getCurrentUser auth credentials) := by
  cases credentials with
  | none => exact fun _ hr => nomatch hr
  | some token =>
    refine ⟨⟨token, rfl, rfl⟩, fun cached _ => ?_⟩
    cases cached with
    | some user =>
      intro user' hr
      cases hr
      exact ⟨token, rfl, .inr List.mem_cons_self⟩
    | none =>
      change Emits _ _ _ _ (review token >>= _)
      refine Emits.bind (review_emits _) fun g r hg => ?_
      have hno : ∀ exc, Emits (fun _ _ => True) (requestIssues auth (some token))
          (requestReturns auth (some token)) g (Prog.pure (.error exc)) :=
        fun _ _ hr => nomatch hr
      match r with
      | .error (.tokenReviewUnavailable _) => exact hno _
      | .error (.raised _) => exact hno _
      | .ok none => exact hno _
      | .ok (some reviewed) =>
        obtain ⟨resp, hpost, hread⟩ := hg reviewed rfl
        change Emits _ _ _ _ (if _ then _ else _)
        split
        · exact hno _
        · rename_i hgroup
          cases huid : parseUid auth reviewed.uid with
          | error exc => cases exc <;> exact hno _
          | ok uid =>
            have hrev : Reviewed auth token ⟨uid, reviewed.username⟩ g :=
              ⟨resp, reviewed, hpost, hread, by simpa using hgroup, huid⟩
            refine ⟨⟨token, rfl, rfl, hrev⟩, fun stored _ => ?_⟩
            cases stored with
            | error exc => exact fun _ hr => nomatch hr
            | ok u =>
              intro user' hr
              cases hr
              obtain ⟨resp, reviewed, hpost, hrest⟩ := hrev
              exact ⟨token, rfl, .inl ⟨resp, reviewed, List.mem_cons_of_mem _ hpost, hrest⟩⟩

end Requests

/-! ### Runs -/

section Runs

variable {auth : AuthApp} {start : Time} {saToken : Option String} {c c' : AuthCfg}

abbrev AuthPassed (auth : AuthApp) (start : Time) (saToken : Option String) :
    AuthCfg → AuthEv → AuthCfg → AuthCfg → Prop :=
  Passed (authSystem auth start saToken) fun _ _ => True

/-- The entry of `tokenHash` in `c` is the one that process `q` stored in the step from
`c₀` to `c₁`; `l` is what has happened since, and nothing was stored for it again. -/
structure Stored (auth : AuthApp) (start : Time) (saToken : Option String) (c : AuthCfg)
    (tokenHash : String) (user : AuthedUser) (c₀ c₁ : AuthCfg) (q : Nat) (l : List AuthEv) :
    Prop where
  passed : AuthPassed auth start saToken c₀ (.act q (.cachePut tokenHash user) (.ok ())) c₁ c
  log : c.shared.log = l ++ .act q (.cachePut tokenHash user) (.ok ()) :: c₀.shared.log
  latest : ∀ q' v r, .act q' (.cachePut tokenHash v) r ∉ l

/-- The request `pid` was admitted as `user` from the cache: it found the entry that
another request for the same token stored after its own review, less than the time to
live before. -/
def FromCache (auth : AuthApp) (start : Time) (saToken : Option String) (c : AuthCfg) (pid : Nat)
    (token : String) (user : AuthedUser) : Prop :=
  ∃ c₂ c₃ c₀ c₁ q l,
    AuthPassed auth start saToken c₂
      (.act pid (.cacheGet (auth.hashToken token)) (some user)) c₃ c ∧
    Stored auth start saToken c₂ (auth.hashToken token) user c₀ c₁ q l ∧
    proc? q c.shared.log = some (some token) ∧
    Reviewed auth token user (own q c₀.shared.log) ∧
    c₃.shared.world.clock - c₁.shared.world.clock < auth.authCacheTtlS

/-- The law of authentication in a configuration: who has been admitted, how large the
cache is, what the next `put` leaves, and that eviction ends. -/
structure AuthLaw (auth : AuthApp) (start : Time) (saToken : Option String) (c : AuthCfg) :
    Prop where
  admitted : ∀ pid token user, .ret pid (.ok user) ∈ c.shared.log →
    proc? pid c.shared.log = some (some token) →
      Reviewed auth token user (own pid c.shared.log) ∨
        FromCache auth start saToken c pid token user
  bounded : (c.shared.world.entries.size : Int) ≤ auth.maxEntries
  stored : 0 < auth.authCacheTtlS → ∀ ch pid tokenHash user r c',
    step (authSystem auth start saToken) c ch = some (.act pid (.cachePut tokenHash user) r, c') →
      r = .ok () ∧ ∃ expiresAt, c'.shared.world.entries.get? tokenHash = some (expiresAt, user)
  evicts : ∀ now entries, ∃ entries', ∀ fuel, entries.size ≤ fuel →
    TokenCache.evict auth.maxEntries fuel now entries = some (entries', .ok ())

/-- Two tokens presented in the log have different hashes. -/
def CollisionFree (auth : AuthApp) (l : List AuthEv) : Prop :=
  ∀ p q token token', proc? p l = some (some token) → proc? q l = some (some token') →
    auth.hashToken token = auth.hashToken token' → token = token'

theorem auth_step {ch : Choice AuthEnv (Option String)} {ev : AuthEv}
    (h : step (authSystem auth start saToken) c ch = some (ev, c')) :
    c'.shared.log = ev :: c.shared.log ∧
      ((∃ pid o r e, ev = .act pid o r ∧
          exec auth o e c.shared.world = some (c'.shared.world, r)) ∨
        c'.shared.world = c.shared.world ∧ ∀ pid o r, ev ≠ .act pid o r) := by
  obtain ⟨p, -, rfl, rfl⟩ | ⟨pid, a, -, rfl, rfl⟩ | ⟨pid, o, k, e, w, r, -, he, rfl, hc⟩ |
    ⟨pid, rest, -, rfl, rfl⟩ := step_cases h
  · exact ⟨rfl, .inr ⟨rfl, by simp⟩⟩
  · exact ⟨rfl, .inr ⟨rfl, by simp⟩⟩
  · rcases hc with ⟨-, rfl⟩ | ⟨p, hf, -⟩
    · exact ⟨rfl, .inl ⟨pid, o, r, e, rfl, he⟩⟩
    · cases hf
  · exact ⟨rfl, .inr ⟨rfl, by simp⟩⟩

/-- What an action does to the cache: the bound is kept, and every entry was there before
and is not stored again, or is the one stored now. -/
theorem exec_entries {o : AuthOp} {e : AuthEnv} {w w' : AuthWorld} {r : o.Res}
    (hmax : 1 ≤ auth.maxEntries) (h : exec auth o e w = some (w', r))
    (hsize : (w.entries.size : Int) ≤ auth.maxEntries) :
    (w'.entries.size : Int) ≤ auth.maxEntries ∧
      ∀ k expiresAt user, w'.entries.get? k = some (expiresAt, user) →
        w.entries.get? k = some (expiresAt, user) ∧
            (0 < auth.authCacheTtlS → ∀ v, o ≠ .cachePut k v) ∨
          0 < auth.authCacheTtlS ∧ expiresAt = w'.clock + auth.authCacheTtlS ∧
            (⟨o, r⟩ : Reply AuthOp AuthOp.Res) = ⟨.cachePut k user, .ok ()⟩ := by
  cases o with
  | cacheGet k' =>
    simp only [exec, Option.some.injEq, Prod.mk.injEq] at h
    obtain ⟨rfl, -⟩ := h
    obtain ⟨h1, h2, -⟩ := TokenCache.get_spec w.entries (w.clock + e.elapsed) k'
    exact ⟨by simp only; omega, fun k exp user hg => .inl ⟨h2 k _ hg, by simp⟩⟩
  | post t =>
    simp only [exec, Option.some.injEq, Prod.mk.injEq] at h
    obtain ⟨rfl, -⟩ := h
    exact ⟨hsize, fun k exp user hg => .inl ⟨hg, by simp⟩⟩
  | readSaToken =>
    simp only [exec, Option.some.injEq, Prod.mk.injEq] at h
    obtain ⟨rfl, -⟩ := h
    exact ⟨hsize, fun k exp user hg => .inl ⟨hg, by simp⟩⟩
  | cachePut k' v =>
    simp only [exec, Option.map_eq_some_iff, Prod.mk.injEq] at h
    obtain ⟨⟨d, r'⟩, hp, rfl, rfl⟩ := h
    by_cases httl : 0 < auth.authCacheTtlS
    · obtain ⟨d', hput, hle, hnew, hold⟩ := TokenCache.put_spec (w.clock + e.elapsed)
        (w.clock + e.elapsed + e.evicting) k' v hmax httl hsize
      rw [hput, Option.some.injEq, Prod.mk.injEq] at hp
      obtain ⟨rfl, rfl⟩ := hp
      refine ⟨hle, fun k exp user hg => ?_⟩
      by_cases hk : k = k'
      · subst hk
        simp only [hnew, Option.some.injEq, Prod.mk.injEq] at hg
        obtain ⟨rfl, rfl⟩ := hg
        exact .inr ⟨httl, rfl, rfl⟩
      · refine .inl ⟨hold k _ hk hg, fun _ v' hv => ?_⟩
        cases hv
        exact hk rfl
    · unfold TokenCache.put at hp
      rw [if_pos (Int.not_lt.1 httl), Option.some.injEq, Prod.mk.injEq] at hp
      obtain ⟨rfl, rfl⟩ := hp
      exact ⟨hsize, fun k exp user hg => .inl ⟨hg, fun h => absurd h httl⟩⟩

/-- Every entry was stored by a step of the run, at its expiry less the time to live. -/
theorem entries_stored (hmax : 1 ≤ auth.maxEntries)
    (hr : Reachable (authSystem auth start saToken) c) :
    (c.shared.world.entries.size : Int) ≤ auth.maxEntries ∧
      ∀ k expiresAt user, c.shared.world.entries.get? k = some (expiresAt, user) →
        0 < auth.authCacheTtlS ∧ ∃ c₀ c₁ q l,
          Stored auth start saToken c k user c₀ c₁ q l ∧
            expiresAt = c₁.shared.world.clock + auth.authCacheTtlS := by
  induction hr with
  | init => exact ⟨by simp only [Config.init, authSystem, Dict.size_empty]; omega, by
      intro k exp user hg
      simp [Config.init, authSystem] at hg⟩
  | @step c c' ch ev hr hs ho ih =>
    obtain ⟨hsize, hent⟩ := ih
    obtain ⟨hlog, hworld⟩ := auth_step hs
    -- an entry that is still there was stored by the same step
    have hkeep : ∀ k expiresAt user, c.shared.world.entries.get? k = some (expiresAt, user) →
        (0 < auth.authCacheTtlS → ∀ q v r, ev ≠ .act q (.cachePut k v) r) →
        0 < auth.authCacheTtlS ∧ ∃ c₀ c₁ q l,
          Stored auth start saToken c' k user c₀ c₁ q l ∧
            expiresAt = c₁.shared.world.clock + auth.authCacheTtlS := by
      intro k exp user hg hne
      obtain ⟨httl, c₀, c₁, q, l, hst, hexp⟩ := hent k exp user hg
      obtain ⟨⟨hrun, hmet, hmoves, hleads⟩, hlog₀, hlatest⟩ := hst
      refine ⟨httl, c₀, c₁, q, ev :: l, ⟨⟨hrun, hmet, hmoves, hleads.step hs⟩, ?_, ?_⟩, hexp⟩
      · rw [hlog, hlog₀]
        rfl
      · intro q' v r hmem
        rcases List.mem_cons.1 hmem with heq | hmem
        · exact hne httl q' v r heq.symm
        · exact hlatest q' v r hmem
    rcases hworld with ⟨pid, o, r, e, rfl, he⟩ | ⟨hw, hact⟩
    · obtain ⟨hsize', hent'⟩ := exec_entries hmax he hsize
      refine ⟨hsize', fun k exp user hg => ?_⟩
      rcases hent' k exp user hg with ⟨hold, hne⟩ | ⟨httl, hexp, heq⟩
      · refine hkeep k exp user hold fun httl q v r' heq => ?_
        rw [Event.act.injEq] at heq
        exact hne httl v heq.2.1
      · cases heq
        exact ⟨httl, c, c', pid, [], ⟨⟨hr, ho, ⟨ch, hs⟩, .refl⟩, hlog, by simp⟩, hexp⟩
    · rw [hw]
      exact ⟨hsize, fun k exp user hg => hkeep k exp user hg fun _ q v r => hact q _ r⟩

theorem fromCache {pid : Nat} {token : String} {user : AuthedUser}
    (hmax : 1 ≤ auth.maxEntries) (hr : Reachable (authSystem auth start saToken) c)
    (hcf : CollisionFree auth c.shared.log) (hp : proc? pid c.shared.log = some (some token))
    (hev : .act pid (.cacheGet (auth.hashToken token)) (some user) ∈ c.shared.log) :
    FromCache auth start saToken c pid token user := by
  obtain ⟨l₂, l₁, hl⟩ := List.append_of_mem hev
  obtain ⟨c₂, c₃, hpass, -⟩ := hr.passed _ l₁ rfl ⟨l₂, hl.symm⟩
  obtain ⟨ch, hs⟩ := hpass.moves
  obtain ⟨-, ⟨p', o, r, e, heq, he⟩ | ⟨-, hno⟩⟩ := auth_step hs
  · cases heq
    simp only [exec, Option.some.injEq, Prod.mk.injEq] at he
    obtain ⟨hw, hget⟩ := he
    obtain ⟨-, -, hfound⟩ := TokenCache.get_spec c₂.shared.world.entries
      (c₂.shared.world.clock + e.elapsed) (auth.hashToken token)
    obtain ⟨exp, hent, hlt⟩ := hfound user hget
    obtain ⟨-, c₀, c₁, q, l, hst, rfl⟩ := (entries_stored hmax hpass.run).2 _ _ _ hent
    -- who stored the entry, and after which review
    have hsuf : .act q (.cachePut (auth.hashToken token) user) (.ok ()) :: c₀.shared.log <:+
        c.shared.log :=
      hst.passed.suffix.trans ((List.suffix_cons _ _).trans hpass.suffix)
    obtain ⟨p, hq, token', rfl, hhash, hrev⟩ := (hr.recorded (fun _ _ _ _ _ _ => trivial)
      (getCurrentUser_emits auth)).1 q _ _ _ hsuf
    obtain rfl := hcf pid q token token' hp hq hhash
    refine ⟨c₂, c₃, c₀, c₁, q, l, hpass, hst, hq, hrev, ?_⟩
    rw [← hw]
    exact Int.sub_left_lt_of_lt_add hlt
  · exact absurd rfl (hno _ _ _)

end Runs

theorem authLaw (auth : AuthApp) (start : Time) (saToken : Option String)
    (hmax : 1 ≤ auth.maxEntries) (c : AuthCfg)
    (hr : Reachable (authSystem auth start saToken) c)
    (hcf : CollisionFree auth c.shared.log) : AuthLaw auth start saToken c where
  admitted pid token user hret hp := by
    obtain ⟨l₂, l₁, hl⟩ := List.append_of_mem hret
    have hsuf : .ret pid (.ok user) :: l₁ <:+ c.shared.log := ⟨l₂, hl.symm⟩
    have hsub : own pid l₁ ⊆ own pid c.shared.log := by
      rintro ⟨o, r⟩ hx
      exact mem_own.2 (hsuf.subset (List.mem_cons_of_mem _ (mem_own.1 hx)))
    obtain ⟨p, hp', hans⟩ := (hr.recorded (fun _ _ _ _ _ _ => trivial)
      (getCurrentUser_emits auth)).2 pid _ l₁ hsuf
    rw [hp, Option.some.injEq] at hp'
    subst hp'
    obtain ⟨token', htok, hans⟩ := hans user rfl
    cases htok
    rcases hans with ⟨resp, reviewed, hpost, hrest⟩ | hcached
    · exact .inl ⟨resp, reviewed, hsub hpost, hrest⟩
    · exact .inr (fromCache hmax hr hcf hp (mem_own.1 (hsub hcached)))
  bounded := (entries_stored hmax hr).1
  stored httl ch pid tokenHash user r c' hs := by
    obtain ⟨-, ⟨p', o, r', e, heq, he⟩ | ⟨-, hno⟩⟩ := auth_step hs
    · cases heq
      simp only [exec, Option.map_eq_some_iff, Prod.mk.injEq] at he
      obtain ⟨⟨d, r'⟩, hput, hw, rfl⟩ := he
      obtain ⟨d', hput', -, hnew, -⟩ := TokenCache.put_spec
        (c.shared.world.clock + e.elapsed) (c.shared.world.clock + e.elapsed + e.evicting)
        tokenHash user hmax httl (entries_stored hmax hr).1
      rw [hput', Option.some.injEq, Prod.mk.injEq] at hput
      obtain ⟨rfl, rfl⟩ := hput
      exact ⟨rfl, _, by rw [← hw]; exact hnew⟩
    · exact absurd rfl (hno _ _ _)
  evicts now entries := by
    obtain ⟨entries', -, -, hrun⟩ := TokenCache.evict_ends hmax now entries
    exact ⟨entries', hrun⟩

def oneToken : AuthApp where
  hashToken raw :=
    if raw = "t" then "e3b98a4da31a127d4bde6e43033f66ba274cab0eb7eb1c70ec41402bf6273dd8" else raw
  uuid hex := if hex = "00000000-0000-0000-0000-000000000005" then some 5 else none

def reviewAnswer : HttpResponse where
  statusCode := 201
  json := some (.obj [("status", .obj [("authenticated", .bool true), ("user", .obj
    [("uid", .str "00000000-0000-0000-0000-000000000005"), ("username", .str "alice"),
      ("groups", .arr [.str "jobprocessor-users"])])])])

/-- A request has its token reviewed; a second one comes 30 s later. -/
def secondRequest : List (Choice AuthEnv (Option String)) :=
  [.start (some "t"), .run 0 {}, .run 0 { answer := fun _ _ => .ok reviewAnswer }, .run 0 {},
    .run 0 {}, .start (some "t"), .run 1 { elapsed := 30000000 }, .run 1 {}]

theorem reachable_of_schedule (auth : AuthApp) (sched : List (Choice AuthEnv (Option String)))
    (p : AuthCfg → Bool)
    (h : replay (authSystem auth 0 none) (fun _ _ => true) sched p = some true) :
    ∃ c, Reachable (authSystem auth 0 none) c ∧ p c = true :=
  Run.of_replay (fun _ _ _ => trivial) h

/-- Request 1 has ended with user 5, every request sent the token `t`, and only request 0
asked the apiserver. -/
def askedOnce (c : AuthCfg) : Bool :=
  (match c.shared.log with
    | .ret 1 (.ok user) :: _ => decide (user.id = 5)
    | _ => false) &&
  c.shared.log.all fun ev => match ev with
    | .start _ token => token = some "t"
    | .act pid (.post _) _ => pid = 0
    | _ => true

theorem authLaw_secondRequest :
    ∃ c user, Reachable (authSystem oneToken 0 none) c ∧ .ret 1 (.ok user) ∈ c.shared.log ∧
      user.id = 5 ∧ (∀ resp, .act 1 (.post "t") resp ∉ c.shared.log) ∧
      AuthLaw oneToken 0 none c := by
  obtain ⟨c, hc, hl⟩ := reachable_of_schedule oneToken secondRequest askedOnce (by decide +kernel)
  rw [askedOnce, Bool.and_eq_true, List.all_eq_true] at hl
  obtain ⟨hret, hall⟩ := hl
  have hcf : CollisionFree oneToken c.shared.log := by
    intro p q token token' hp hq _
    have h₁ := hall _ (mem_of_proc? hp)
    have h₂ := hall _ (mem_of_proc? hq)
    simp only [decide_eq_true_eq, Option.some.injEq] at h₁ h₂
    rw [h₁, h₂]
  split at hret
  · rename_i user l hlog
    refine ⟨c, user, hc, by rw [hlog]; exact List.mem_cons_self, of_decide_eq_true hret, ?_,
      authLaw oneToken 0 none (by decide) c hc hcf⟩
    intro resp hmem
    have := hall _ hmem
    simp at this
  · cases hret

end JobProcessor.Auth
