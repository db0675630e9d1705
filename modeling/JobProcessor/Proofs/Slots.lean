import JobProcessor.Proofs.Delivery

/-! The semaphore of a worker. Every slot in use is held by the pull loop that
acquired it or by a task that loop has created, nobody else gives one back, and so
no worker ever has more tasks at work than it has slots. -/

namespace JobProcessor

open Interleave Prog Store

variable {app : App}

/-! ### What the programs do with slots -/

/-- Is a pull loop between `sem.acquire` and giving the slot back, or to a task? -/
def holding : Hist → Bool
  | [] => false
  | ⟨.semAcquire _, _⟩ :: _ => true
  | ⟨.semRelease _, _⟩ :: _ => false
  | ⟨.createTask _, _⟩ :: _ => false
  | _ :: h => holding h

def Released (h : Hist) : Prop := ∃ x ∈ h, ∃ c, x.1 = .semRelease c

def Op.onSlots : Op → Bool
  | .semAcquire _ => true
  | .semRelease _ => true
  | .createTask _ => true
  | _ => false

def loopSlots (consumer : String) (h : Hist) : Op → Prop
  | .semAcquire c => c = consumer ∧ holding h = false
  | .semRelease c => c = consumer ∧ holding h = true
  | .createTask p => (∃ m, p = .runOne consumer m) ∧ holding h = true
  | _ => True

def taskSlots (consumer : String) (h : Hist) : Op → Prop
  | .semAcquire _ => False
  | .semRelease c => c = consumer ∧ ¬ Released h
  | .createTask _ => False
  | _ => True

def slotIssues : Proc → Hist → Op → Prop
  | .workerLoop consumer _ => loopSlots consumer
  | .runOne consumer _ => taskSlots consumer
  | _ => fun _ o => o.onSlots = false

def slotReturns : Proc → Hist → Out → Prop
  | .workerLoop _ _ => fun h _ => holding h = false
  | .runOne _ _ => fun h _ => Released h
  | _ => fun _ _ => True

theorem holding_cons {o : Op} (ho : o.onSlots = false) (r : o.Res) (h : Hist) :
    holding (⟨o, r⟩ :: h) = holding h := by
  cases o <;> first | rfl | cases ho

theorem released_cons {o : Op} (ho : ∀ c, o ≠ .semRelease c) (r : o.Res) (h : Hist) :
    Released (⟨o, r⟩ :: h) ↔ Released h := by
  constructor
  · rintro ⟨x, hx, c, hc⟩
    rcases List.mem_cons.1 hx with rfl | hx
    · exact absurd hc (ho c)
    · exact ⟨x, hx, c, hc⟩
  · rintro ⟨x, hx, hc⟩
    exact ⟨x, List.mem_cons_of_mem _ hx, hc⟩

theorem readPriority_slots {consumer : String} (streams : List String) {h : Hist} {b : Bool}
    (hb : holding h = b) :
    Emits Valid (loopSlots consumer) (fun g _ => holding g = b) h
      (readPriority consumer streams 1) := by
  have hprobe : Emits Valid (loopSlots consumer) (fun g _ => holding g = b) h
      (probe consumer 1 streams) := by
    induction streams generalizing h with
    | nil => exact hb
    | cons s ss ih =>
      refine ⟨trivial, fun msgs _ => ?_⟩
      cases msgs with
      | nil => exact ih hb
      | cons m ms => exact hb
  refine Emits.bind hprobe fun g msgs hg => ?_
  cases msgs with
  | nil => exact ⟨trivial, fun _ _ => hg⟩
  | cons m ms => exact hg

theorem workerLoop_slots {consumer : String} (fuel : Nat) {h : Hist} (hh : holding h = false) :
    Emits Valid (loopSlots consumer) (fun g _ => holding g = false) h
      (workerLoop app consumer fuel) := by
  induction fuel generalizing h with
  | zero => exact hh
  | succ fuel ih =>
    simp only [workerLoop, op_bind, mpure_eq]
    refine ⟨trivial, fun stop _ => ?_⟩
    cases stop with
    | true => exact hh
    | false =>
      refine ⟨⟨rfl, hh⟩, fun _ _ => Emits.bind (readPriority_slots _ rfl) fun g msgs hg => ?_⟩
      cases msgs with
      | nil => exact ⟨⟨rfl, hg⟩, fun _ _ => ih rfl⟩
      | cons m ms => exact ⟨⟨⟨m, rfl⟩, hg⟩, fun _ _ => ih rfl⟩

theorem handleMessage_slots (m : Message) :
    Uses Valid (fun o => o.onSlots = false) (handleMessage app m) := by
  have hissue : ∀ {c g o}, (∀ c', o ≠ .semRelease c') → taskIssues c m g o → o.onSlots = false := by
    intro c g o hne ho
    cases o <;> first | rfl | exact ho.elim | exact absurd rfl (hne _)
  unfold handleMessage
  split
  · exact ⟨rfl, fun _ _ => trivial⟩
  · rename_i id hm
    -- what a task issues before its end is the same whoever runs it
    have hp : Emits Valid (fun _ o => o.onSlots = false) (fun _ _ => True) []
        (processJob app id) := by
      have htask : ∀ c, Emits Valid (taskIssues c m)
          (fun g r => ∀ out, r = .ok out → out.ack = true → MayAck m g) [] (processJob app id) :=
        fun _ => processJob_task hm
      refine ((htask "a").and (htask "b")).mono ?_ fun _ _ _ => trivial
      rintro g o ⟨ha, hb⟩
      refine hissue ?_ ha
      rintro c rfl
      exact absurd (ha.symm.trans hb) (by decide)
    refine Emits.bind hp fun g r _ => ?_
    cases r with
    | error exc => trivial
    | ok out =>
      dsimp only
      split
      · exact ⟨rfl, fun _ _ => trivial⟩
      · trivial

theorem runOne_slots {consumer : String} (m : Message) :
    Emits Valid (taskSlots consumer) (fun g _ => Released g) [] (runOne app consumer m) := by
  have hmsg : Emits Valid (taskSlots consumer) (fun g _ => ¬ Released g) []
      (handleMessage app m) := by
    refine Emits.of_uses (I := fun g => ¬ Released g) (handleMessage_slots m) ?_ ?_ ?_
    · intro g o _ ho
      cases o <;> trivial
    · intro g o r _ hg ho
      rw [released_cons]
      · exact hg
      · rintro c rfl
        cases ho
    · rintro ⟨x, hx, -⟩
      cases hx
  refine Emits.bind hmsg fun g r hg => ⟨⟨rfl, hg⟩, fun _ _ => ?_⟩
  exact ⟨_, List.mem_cons_self, consumer, rfl⟩

theorem body_slots (app : App) (p : Proc) :
    Emits Valid (slotIssues p) (slotReturns p) [] (body app p) := by
  have hnone : (∀ h o, issues app p h o → o.onSlots = false) →
      Emits Valid (fun _ o => o.onSlots = false) (fun _ _ => True) [] (body app p) := fun hp =>
    (body_emits app p).mono hp fun _ _ _ => trivial
  cases p with
  | workerLoop consumer fuel => exact Emits.bind (workerLoop_slots fuel rfl) fun _ _ hg => hg
  | runOne consumer m => exact Emits.bind (runOne_slots m) fun _ _ hg => hg
  | _ =>
    apply hnone
    intro h o ho
    cases o <;> first | rfl | exact ho.elim | exact ho.1.elim

/-! ### Who holds the slots -/

section Runs

variable {σ σ' : State} {ev : Ev} {consumer : String}

/-- Who holds a slot: a pull loop, known by its process, or a task, by its entry. -/
inductive SlotHolder where
  | loop (pid : Nat)
  | task (entry : Nat)
deriving DecidableEq

/-- What process `pid` holds a slot as. -/
def holder (l : List Ev) (pid : Nat) : SlotHolder :=
  match taskEntry l pid with
  | some i => .task i
  | none => .loop pid

/-- The holders of the slots of a worker, the newest first. -/
def slots (consumer : String) : List Ev → List SlotHolder
  | [] => []
  | .act pid (.semAcquire c) _ :: l =>
    if c = consumer then .loop pid :: slots consumer l else slots consumer l
  | .act pid (.semRelease c) _ :: l =>
    if c = consumer then (slots consumer l).erase (holder l pid) else slots consumer l
  | .act pid (.createTask (.runOne c m)) _ :: l =>
    if c = consumer then .task m.messageId :: (slots consumer l).erase (.loop pid)
    else slots consumer l
  | _ :: l => slots consumer l

/-- A loop of this worker has created a task for entry `i`. -/
def Tasked (consumer : String) (l : List Ev) (i : Nat) : Prop :=
  ∃ q m u, .act q (.createTask (.runOne consumer m)) u ∈ l ∧ m.messageId = i

def HoldsSlot (consumer : String) (l : List Ev) : SlotHolder → Prop
  | .loop pid => (∃ fuel, proc? pid l = some (.workerLoop consumer fuel)) ∧
    holding (own pid l) = true
  | .task i => Tasked consumer l i ∧ ∀ pid m, proc? pid l = some (.runOne consumer m) →
    m.messageId = i → ¬ Released (own pid l)

def takesSlot (consumer : String) : Ev → Bool
  | .act _ (.semAcquire c) _ => c = consumer
  | _ => false

def returnsSlot (consumer : String) : Ev → Bool
  | .act _ (.semRelease c) _ => c = consumer
  | _ => false

structure Slots (consumer : String) (σ : State) : Prop where
  nodup : (slots consumer σ.log).Nodup
  exact : ∀ x, x ∈ slots consumer σ.log ↔ HoldsSlot consumer σ.log x
  counted : (slots consumer σ.log).length = σ.world.inUse consumer
  tallied : σ.world.inUse consumer + σ.log.countP (returnsSlot consumer) =
    σ.log.countP (takesSlot consumer)

theorem slots_act {pid : Nat} {o : Op} {r : o.Res} {l : List Ev} (ho : o.onSlots = false) :
    slots consumer (.act pid o r :: l) = slots consumer l := by
  cases o <;> first | rfl | cases ho

theorem tasked_cons {l : List Ev} {i : Nat}
    (hev : ∀ q m u, ev ≠ .act q (.createTask (.runOne consumer m)) u) :
    Tasked consumer (ev :: l) i ↔ Tasked consumer l i := by
  constructor
  · rintro ⟨q, m, u, hmem, hi⟩
    rcases List.mem_cons.1 hmem with heq | hmem
    · exact absurd heq.symm (hev q m u)
    · exact ⟨q, m, u, hmem, hi⟩
  · rintro ⟨q, m, u, hmem, hi⟩
    exact ⟨q, m, u, List.mem_cons_of_mem _ hmem, hi⟩

theorem holds_act {pid : Nat} {o : Op} {r : o.Res} {l : List Ev} (ho : o.onSlots = false)
    (x : SlotHolder) : HoldsSlot consumer (.act pid o r :: l) x ↔ HoldsSlot consumer l x := by
  have hh : ∀ q, holding (own q (.act pid o r :: l)) = holding (own q l) := by
    intro q
    rw [own_act]
    split
    · exact holding_cons ho r _
    · rfl
  have hr : ∀ q, Released (own q (.act pid o r :: l)) ↔ Released (own q l) := by
    intro q
    rw [own_act]
    split
    · exact released_cons (by rintro c rfl; cases ho) r _
    · rfl
  cases x with
  | loop q => simp only [HoldsSlot, proc?_act, hh]
  | task i =>
    have ht : Tasked consumer (.act pid o r :: l) i ↔ Tasked consumer l i := by
      refine tasked_cons ?_
      rintro q m u heq
      cases heq
      cases ho
    simp only [HoldsSlot, ht, proc?_act, hr]

theorem holds_start {pid : Nat} {p : Proc} {l : List Ev} (hp : proc? pid l = none)
    (hown : own pid l = []) (x : SlotHolder) :
    HoldsSlot consumer (.start pid p :: l) x ↔ HoldsSlot consumer l x := by
  cases x with
  | loop q =>
    simp only [HoldsSlot, proc?_start, own_start]
    by_cases hq : pid = q
    · subst hq
      rw [hown]
      simp [holding]
    · rw [if_neg hq]
  | task i =>
    have ht : Tasked consumer (.start pid p :: l) i ↔ Tasked consumer l i :=
      tasked_cons (by simp)
    simp only [HoldsSlot, ht, proc?_start, own_start]
    refine and_congr_right fun _ => forall_congr' fun q => forall_congr' fun m => ?_
    by_cases hq : pid = q
    · subst hq
      simp [hown, hp, Released]
    · rw [if_neg hq]

theorem holds_over {l : List Ev} (hev : (∃ q a, ev = .ret q a) ∨ ∃ q, ev = .crash q)
    (x : SlotHolder) : HoldsSlot consumer (ev :: l) x ↔ HoldsSlot consumer l x := by
  have ht : ∀ i, Tasked consumer (ev :: l) i ↔ Tasked consumer l i := by
    intro i
    refine tasked_cons ?_
    rintro q m u rfl
    rcases hev with ⟨_, _, h⟩ | ⟨_, h⟩ <;> cases h
  rcases hev with ⟨q, a, rfl⟩ | ⟨q, rfl⟩
  · cases x with
    | loop i => exact Iff.rfl
    | task i => exact and_congr_left' (ht i)
  · cases x with
    | loop i => exact Iff.rfl
    | task i => exact and_congr_left' (ht i)

def Proc.worker : Proc → Option String
  | .workerLoop consumer _ => some consumer
  | .runOne consumer _ => some consumer
  | _ => none

theorem holds_foreign {pid : Nat} {p : Proc} {o : Op} {r : o.Res} {l : List Ev}
    (hp : proc? pid l = some p) (hw : p.worker ≠ some consumer)
    (ho : ∀ m, o ≠ .createTask (.runOne consumer m)) (x : SlotHolder) :
    HoldsSlot consumer (.act pid o r :: l) x ↔ HoldsSlot consumer l x := by
  cases x with
  | loop q =>
    simp only [HoldsSlot, proc?_act, own_act]
    by_cases hq : pid = q
    · subst hq
      have hno : ¬ ∃ fuel, proc? pid l = some (.workerLoop consumer fuel) := by
        rintro ⟨fuel, hf⟩
        rw [hp, Option.some.injEq] at hf
        exact hw (by rw [hf]; rfl)
      simp [hno]
    · rw [if_neg hq]
  | task i =>
    have ht : Tasked consumer (.act pid o r :: l) i ↔ Tasked consumer l i := by
      refine tasked_cons ?_
      rintro q m u heq
      cases heq
      exact ho m rfl
    simp only [HoldsSlot, ht, proc?_act, own_act]
    refine and_congr_right fun _ => forall_congr' fun q => forall_congr' fun m => ?_
    by_cases hq : pid = q
    · subst hq
      have hno : proc? pid l ≠ some (.runOne consumer m) := by
        intro hf
        rw [hp, Option.some.injEq] at hf
        exact hw (by rw [hf]; rfl)
      simp [hno]
    · rw [if_neg hq]

theorem holds_loop {pid fuel : Nat} {o : Op} {r : o.Res} {l : List Ev}
    (hp : proc? pid l = some (.workerLoop consumer fuel))
    (ho : ∀ p, o ≠ .createTask p) (x : SlotHolder) :
    HoldsSlot consumer (.act pid o r :: l) x ↔
      if x = .loop pid then holding (⟨o, r⟩ :: own pid l) = true else HoldsSlot consumer l x := by
  cases x with
  | loop q =>
    simp only [HoldsSlot, proc?_act, own_act, SlotHolder.loop.injEq]
    by_cases hq : q = pid
    · subst hq
      simp [hp]
    · rw [if_neg hq, if_neg (Ne.symm hq)]
  | task i =>
    rw [if_neg (by simp)]
    have ht : Tasked consumer (.act pid o r :: l) i ↔ Tasked consumer l i := by
      refine tasked_cons ?_
      rintro q m u heq
      cases heq
      exact ho _ rfl
    simp only [HoldsSlot, ht, proc?_act, own_act]
    refine and_congr_right fun _ => forall_congr' fun q => forall_congr' fun m => ?_
    by_cases hq : pid = q
    · subst hq
      simp [hp]
    · rw [if_neg hq]

theorem holds_task {pid : Nat} {m : Message} {r : Unit} {l : List Ev}
    (hp : proc? pid l = some (.runOne consumer m)) (x : SlotHolder) :
    HoldsSlot consumer (.act pid (.semRelease consumer) r :: l) x ↔
      x ≠ .task m.messageId ∧ HoldsSlot consumer l x := by
  cases x with
  | loop q =>
    simp only [HoldsSlot, proc?_act, own_act, ne_eq, reduceCtorEq, not_false_eq_true, true_and]
    by_cases hq : pid = q
    · subst hq
      simp [hp]
    · rw [if_neg hq]
  | task i =>
    have ht : Tasked consumer (.act pid (.semRelease consumer) r :: l) i ↔ Tasked consumer l i :=
      tasked_cons (by simp)
    simp only [HoldsSlot, ht, proc?_act, own_act, ne_eq, SlotHolder.task.injEq]
    constructor
    · rintro ⟨htask, hfree⟩
      have hne : ¬ i = m.messageId := by
        intro hi
        refine hfree pid m hp hi.symm ?_
        rw [if_pos rfl]
        exact ⟨_, List.mem_cons_self, consumer, rfl⟩
      refine ⟨hne, htask, fun q m' hq hi => ?_⟩
      have hne' : ¬ pid = q := by
        rintro rfl
        rw [hp] at hq
        cases hq
        exact hne hi.symm
      have hfree' := hfree q m' hq hi
      rwa [if_neg hne'] at hfree'
    · rintro ⟨hne, htask, hfree⟩
      refine ⟨htask, fun q m' hq hi => ?_⟩
      have hne' : ¬ pid = q := by
        rintro rfl
        rw [hp] at hq
        cases hq
        exact hne hi.symm
      rw [if_neg hne']
      exact hfree q m' hq hi

theorem mem_taskEntries_of_tasked {l : List Ev} {i : Nat} (h : Tasked consumer l i) :
    i ∈ taskEntries l := by
  obtain ⟨q, m, u, hmem, rfl⟩ := h
  induction l with
  | nil => cases hmem
  | cons ev l ih =>
    rcases List.mem_cons.1 hmem with rfl | hmem
    · exact List.mem_cons_self
    · rcases taskEntries_cons ev l with he | ⟨_, _, _, _, _, he⟩
      · rw [he]
        exact ih hmem
      · rw [he]
        exact List.mem_cons_of_mem _ (ih hmem)

theorem holds_created {pid fuel : Nat} {m : Message} {r : Unit} {l : List Ev}
    (hp : proc? pid l = some (.workerLoop consumer fuel)) (hnew : m.messageId ∉ taskEntries l)
    (hbegun : ∀ q m', proc? q l = some (.runOne consumer m') → m'.messageId ∈ taskEntries l)
    (x : SlotHolder) :
    HoldsSlot consumer (.act pid (.createTask (.runOne consumer m)) r :: l) x ↔
      x = .task m.messageId ∨ x ≠ .loop pid ∧ HoldsSlot consumer l x := by
  cases x with
  | loop q =>
    simp only [HoldsSlot, proc?_act, own_act, reduceCtorEq, false_or, ne_eq, SlotHolder.loop.injEq]
    by_cases hq : pid = q
    · subst hq
      simp [holding]
    · rw [if_neg hq]
      simp [Ne.symm hq]
  | task i =>
    simp only [HoldsSlot, proc?_act, own_act, SlotHolder.task.injEq, ne_eq, reduceCtorEq, not_false_eq_true,
      true_and]
    have hown : ∀ q m', proc? q l = some (.runOne consumer m') → ¬ pid = q := by
      rintro q m' hq rfl
      rw [hp] at hq
      cases hq
    have ht : Tasked consumer (.act pid (.createTask (.runOne consumer m)) r :: l) i ↔
        i = m.messageId ∨ Tasked consumer l i := by
      constructor
      · rintro ⟨q, m', u, hmem, rfl⟩
        rcases List.mem_cons.1 hmem with heq | hmem
        · cases heq
          exact .inl rfl
        · exact .inr ⟨q, m', u, hmem, rfl⟩
      · rintro (rfl | ⟨q, m', u, hmem, hi⟩)
        · exact ⟨pid, m, r, List.mem_cons_self, rfl⟩
        · exact ⟨q, m', u, List.mem_cons_of_mem _ hmem, hi⟩
    rw [ht]
    constructor
    · rintro ⟨hi | htask, hfree⟩
      · exact .inl hi
      · refine .inr ⟨htask, fun q m' hq hi => ?_⟩
        have := hfree q m' hq hi
        rwa [if_neg (hown q m' hq)] at this
    · rintro (rfl | ⟨htask, hfree⟩)
      · refine ⟨.inl rfl, fun q m' hq hi => ?_⟩
        exact absurd (hi ▸ hbegun q m' hq) hnew
      · refine ⟨.inr htask, fun q m' hq hi => ?_⟩
        rw [if_neg (hown q m' hq)]
        exact hfree q m' hq hi

theorem exec_inUse {n : Nat} {o : Op} {e : Env} {w w' : World} {r : o.Res}
    (h : exec n o e w = some (w', r)) (c : String) :
    w'.inUse c = match o with
      | .semAcquire c' => if c = c' then w.inUse c + 1 else w.inUse c
      | .semRelease c' => if c = c' then w.inUse c - 1 else w.inUse c
      | _ => w.inUse c := by
  cases o with
  | semAcquire c' =>
    simp only [exec] at h
    split at h
    · cases h
      dsimp only
      rw [Function.update_apply]
      split
      · rename_i hc
        rw [hc]
      · rfl
    · cases h
  | semRelease c' =>
    simp only [exec, Option.some.injEq, Prod.mk.injEq] at h
    obtain ⟨rfl, -⟩ := h
    dsimp only
    rw [Function.update_apply]
    split
    · rename_i hc
      rw [hc]
    · rfl
  | _ => simp only [exec] at h; (try split at h) <;> cases h <;> rfl

/-- What every process says about slots, with all that is known of the tasks. -/
structure SlotInv (σ : State) : Prop where
  tasks : TaskProcs σ
  born : ∀ q c m, proc? q σ.log = some (.runOne c m) → Tasked c σ.log m.messageId
  held : ∀ consumer, Slots consumer σ

theorem Slots.quiet (h : Slots consumer σ) (hlog : σ'.log = ev :: σ.log)
    (hev : takesSlot consumer ev = false ∧ returnsSlot consumer ev = false)
    (hslots : slots consumer (ev :: σ.log) = slots consumer σ.log)
    (hholds : ∀ x, HoldsSlot consumer (ev :: σ.log) x ↔ HoldsSlot consumer σ.log x)
    (huse : σ'.world.inUse consumer = σ.world.inUse consumer) : Slots consumer σ' := by
  refine ⟨?_, fun x => ?_, ?_, ?_⟩
  · rw [hlog, hslots]
    exact h.nodup
  · rw [hlog, hslots, hholds]
    exact h.exact x
  · rw [hlog, hslots, huse]
    exact h.counted
  · rw [hlog, huse, List.countP_cons_of_neg (by simp [hev]), List.countP_cons_of_neg (by simp [hev])]
    exact h.tallied

theorem Slots.acquire {pid fuel : Nat} {u : Unit} (h : Slots consumer σ)
    (hm : Move (system app) σ (.act pid (.semAcquire consumer) u) σ')
    (hp : proc? pid σ.log = some (.workerLoop consumer fuel))
    (hh : holding (own pid σ.log) = false) : Slots consumer σ' := by
  obtain ⟨e, he⟩ := move_exec hm
  have hlog := move_log hm
  have hslots : slots consumer σ'.log = .loop pid :: slots consumer σ.log := by
    rw [hlog]
    exact if_pos rfl
  have hnew : SlotHolder.loop pid ∉ slots consumer σ.log := by
    rw [h.exact]
    rintro ⟨-, ht⟩
    rw [hh] at ht
    cases ht
  have huse : σ'.world.inUse consumer = σ.world.inUse consumer + 1 :=
    (exec_inUse he consumer).trans (if_pos rfl)
  refine ⟨?_, fun x => ?_, ?_, ?_⟩
  · rw [hslots, List.nodup_cons]
    exact ⟨hnew, h.nodup⟩
  · rw [hslots, hlog, holds_loop hp (by simp), List.mem_cons, h.exact]
    split
    · rename_i hx
      simp [hx, holding]
    · rename_i hx
      simp [hx]
  · rw [hslots, huse, List.length_cons, h.counted]
  · rw [hlog, huse, List.countP_cons_of_neg (by simp [returnsSlot]),
      List.countP_cons_of_pos (by simp [takesSlot]), ← h.tallied]
    omega

theorem Slots.release {pid : Nat} {u : Unit} (h : Slots consumer σ)
    (hm : Move (system app) σ (.act pid (.semRelease consumer) u) σ')
    (hheld : HoldsSlot consumer σ.log (holder σ.log pid))
    (hholds : ∀ x, HoldsSlot consumer (.act pid (.semRelease consumer) u :: σ.log) x ↔
      x ≠ holder σ.log pid ∧ HoldsSlot consumer σ.log x) : Slots consumer σ' := by
  obtain ⟨e, he⟩ := move_exec hm
  have hlog := move_log hm
  have hslots : slots consumer σ'.log = (slots consumer σ.log).erase (holder σ.log pid) := by
    rw [hlog]
    exact if_pos rfl
  have hmem := (h.exact _).2 hheld
  have hpos : 0 < σ.world.inUse consumer := h.counted ▸ List.length_pos_of_mem hmem
  have huse : σ'.world.inUse consumer = σ.world.inUse consumer - 1 :=
    (exec_inUse he consumer).trans (if_pos rfl)
  refine ⟨?_, fun x => ?_, ?_, ?_⟩
  · rw [hslots]
    exact h.nodup.erase _
  · rw [hslots, hlog, hholds, h.nodup.mem_erase_iff, h.exact]
  · rw [hslots, huse, List.length_erase_of_mem hmem, h.counted]
  · rw [hlog, huse, List.countP_cons_of_pos (by simp [returnsSlot]),
      List.countP_cons_of_neg (by simp [takesSlot]), ← h.tallied]
    omega

theorem Slots.handOn {pid fuel : Nat} {m : Message} {u : Unit} (h : Slots consumer σ)
    (hT : TaskProcs σ) (hm : Move (system app) σ (.act pid (.createTask (.runOne consumer m)) u) σ')
    (hp : proc? pid σ.log = some (.workerLoop consumer fuel))
    (hh : holding (own pid σ.log) = true) (hnew : m.messageId ∉ taskEntries σ.log) :
    Slots consumer σ' := by
  obtain ⟨e, he⟩ := move_exec hm
  have hlog := move_log hm
  have hslots : slots consumer σ'.log =
      .task m.messageId :: (slots consumer σ.log).erase (.loop pid) := by
    rw [hlog]
    exact if_pos rfl
  have hmem : SlotHolder.loop pid ∈ slots consumer σ.log := (h.exact _).2 ⟨⟨fuel, hp⟩, hh⟩
  have hfresh : SlotHolder.task m.messageId ∉ slots consumer σ.log := by
    rw [h.exact]
    rintro ⟨ht, -⟩
    exact hnew (mem_taskEntries_of_tasked ht)
  have huse : σ'.world.inUse consumer = σ.world.inUse consumer := exec_inUse he consumer
  refine ⟨?_, fun x => ?_, ?_, ?_⟩
  · rw [hslots, List.nodup_cons]
    exact ⟨fun hx => hfresh (List.mem_of_mem_erase hx), h.nodup.erase _⟩
  · rw [hslots, hlog, holds_created hp hnew fun q m' hq =>
      mem_taskEntries_of_tail (hT.begun q consumer m' hq).1, List.mem_cons,
      h.nodup.mem_erase_iff, h.exact]
  · have hpos := List.length_pos_of_mem hmem
    rw [hslots, huse, List.length_cons, List.length_erase_of_mem hmem, ← h.counted]
    omega
  · rw [hlog, huse, List.countP_cons_of_neg (by simp [returnsSlot]),
      List.countP_cons_of_neg (by simp [takesSlot])]
    exact h.tallied

theorem slotIssues_proc {p : Proc} {g : Hist} {o : Op} (ho : o.onSlots = true)
    (hi : slotIssues p g o) :
    (∃ c fuel, p = .workerLoop c fuel ∧ loopSlots c g o) ∨
      ∃ c m, p = .runOne c m ∧ o = .semRelease c ∧ ¬ Released g := by
  cases p with
  | workerLoop c fuel => exact .inl ⟨c, fuel, rfl, hi⟩
  | runOne c m =>
    cases o with
    | semRelease c' =>
      obtain ⟨rfl, hg⟩ := hi
      exact .inr ⟨_, m, rfl, rfl, hg⟩
    | semAcquire c' => exact hi.elim
    | createTask p => exact hi.elim
    | _ => cases ho
  | _ =>
    change o.onSlots = false at hi
    rw [ho] at hi
    cases hi

theorem Slots.move_loop {pid fuel : Nat} {c : String} {o : Op} {r : o.Res} (h : Slots consumer σ)
    (hT : TaskProcs σ) (hm : Move (system app) σ (.act pid o r) σ')
    (ht : Told app σ (.act pid o r)) (hp : proc? pid σ.log = some (.workerLoop c fuel))
    (ho : o.onSlots = true) (hi : loopSlots c (own pid σ.log) o) : Slots consumer σ' := by
  have hlog := move_log hm
  obtain ⟨e, he⟩ := move_exec hm
  by_cases hc : c = consumer
  · subst hc
    cases o with
    | semAcquire c' =>
      obtain ⟨rfl, hh⟩ := hi
      exact h.acquire hm hp hh
    | semRelease c' =>
      obtain ⟨rfl, hh⟩ := hi
      have hholder : holder σ.log pid = .loop pid := by rw [holder, taskEntry, hp]
      refine h.release hm (hholder ▸ ⟨⟨fuel, hp⟩, hh⟩) fun x => ?_
      rw [holds_loop hp (by simp), hholder]
      split
      · rename_i hx
        simp [hx, holding]
      · rename_i hx
        simp [hx]
    | createTask p =>
      obtain ⟨⟨m, rfl⟩, hh⟩ := hi
      obtain ⟨-, c₁, ss₁, n₁, ms₁, g₁, hq⟩ := hT.one.created ht
      exact h.handOn hT hm hp hh (hT.one.waiting pid c₁ ss₁ n₁ _ g₁ hq m List.mem_cons_self)
    | _ => cases ho
  · -- the slots of another worker
    have hw : (Proc.workerLoop c fuel).worker ≠ some consumer := by
      rintro hs
      exact hc (Option.some.inj hs)
    have hother : ∀ m, o ≠ .createTask (.runOne consumer m) := by
      rintro m rfl
      obtain ⟨⟨m', hm'⟩, -⟩ := hi
      cases hm'
      exact hc rfl
    refine h.quiet hlog ?_ ?_ (holds_foreign hp hw hother) ?_
    · cases o with
      | semAcquire c' => exact ⟨decide_eq_false (hi.1 ▸ hc), rfl⟩
      | semRelease c' => exact ⟨rfl, decide_eq_false (hi.1 ▸ hc)⟩
      | createTask p => exact ⟨rfl, rfl⟩
      | _ => cases ho
    · cases o with
      | semAcquire c' => exact if_neg (hi.1 ▸ hc)
      | semRelease c' => exact if_neg (hi.1 ▸ hc)
      | createTask p =>
        obtain ⟨⟨m', rfl⟩, -⟩ := hi
        exact if_neg hc
      | _ => cases ho
    · rw [exec_inUse he]
      cases o with
      | semAcquire c' => exact if_neg fun hs => hc (hi.1.symm.trans hs.symm)
      | semRelease c' => exact if_neg fun hs => hc (hi.1.symm.trans hs.symm)
      | createTask p => rfl
      | _ => cases ho

theorem Slots.move_task {pid : Nat} {c : String} {m : Message} {u : Unit} (h : Slots consumer σ)
    (hT : TaskProcs σ) (hborn : Tasked c σ.log m.messageId)
    (hm : Move (system app) σ (.act pid (.semRelease c) u) σ')
    (hp : proc? pid σ.log = some (.runOne c m)) (hfree : ¬ Released (own pid σ.log)) :
    Slots consumer σ' := by
  have hlog := move_log hm
  obtain ⟨e, he⟩ := move_exec hm
  have htask : taskEntry σ.log pid = some m.messageId := taskEntry_of_proc hp
  have hholder : holder σ.log pid = .task m.messageId := by rw [holder, htask]
  by_cases hc : c = consumer
  · subst hc
    refine h.release hm (hholder ▸ ⟨hborn, ?_⟩) fun x => ?_
    · intro q m' hq hi
      have hqp := hT.once q pid m.messageId (hi ▸ taskEntry_of_proc hq) htask
      exact hqp ▸ hfree
    · rw [hholder]
      exact holds_task hp x
  · have hw : (Proc.runOne c m).worker ≠ some consumer := by
      rintro hs
      exact hc (Option.some.inj hs)
    refine h.quiet hlog ⟨rfl, decide_eq_false hc⟩ (if_neg hc) (holds_foreign hp hw (by simp)) ?_
    · rw [exec_inUse he]
      exact if_neg (Ne.symm hc)

theorem Slots.move (h : Slots consumer σ) (hI : SlotInv σ) (hm : Move (system app) σ ev σ')
    (ht : Told app σ ev) (hs : Issued (system app) slotIssues slotReturns σ ev) :
    Slots consumer σ' := by
  have hlog := move_log hm
  cases ev with
  | start pid p =>
    cases hm
    exact h.quiet rfl ⟨rfl, rfl⟩ rfl (holds_start ht.1.1 ht.1.2) rfl
  | ret pid a =>
    cases hm
    exact h.quiet rfl ⟨rfl, rfl⟩ rfl (holds_over (.inl ⟨pid, a, rfl⟩)) rfl
  | crash pid =>
    cases hm
    exact h.quiet rfl ⟨rfl, rfl⟩ rfl (holds_over (.inr ⟨pid, rfl⟩)) rfl
  | act pid o r =>
    obtain ⟨-, p, hp, hi⟩ := hs
    cases ho : o.onSlots with
    | false =>
      obtain ⟨e, he⟩ := move_exec hm
      refine h.quiet hlog ?_ (slots_act ho) (holds_act ho) ?_
      · cases o <;> first | exact ⟨rfl, rfl⟩ | cases ho
      · rw [exec_inUse he]
        cases o <;> first | rfl | cases ho
    | true =>
      rcases slotIssues_proc ho hi with ⟨c, fuel, rfl, hl⟩ | ⟨c, m, rfl, rfl, hfree⟩
      · exact h.move_loop hI.tasks hm ht hp ho hl
      · exact h.move_task hI.tasks (hI.born pid c m hp) hm hp hfree

theorem SlotInv.move (h : SlotInv σ) (hm : Move (system app) σ ev σ') (ht : Told app σ ev)
    (hs : Issued (system app) slotIssues slotReturns σ ev) : SlotInv σ' := by
  refine ⟨h.tasks.move hm ht, fun q c m hp => ?_, fun consumer => (h.held consumer).move h hm ht hs⟩
  rw [move_log hm] at hp ⊢
  have hstay : Tasked c σ.log m.messageId → Tasked c (ev :: σ.log) m.messageId :=
    fun ⟨q', m', u, hmem, hi⟩ => ⟨q', m', u, List.mem_cons_of_mem _ hmem, hi⟩
  rcases proc_before hp with hp' | rfl
  · exact hstay (h.born q c m hp')
  · obtain ⟨q', u, l, hl⟩ := created_of_start ht
    exact hstay ⟨q', m, u, by rw [hl]; exact List.mem_cons_self, rfl⟩

theorem slotInv {ok : State → Ev → Prop} {c : Cfg} (hr : Run (system app) ok c) :
    SlotInv c.shared := by
  refine Run.inv (I := SlotInv) (P := fun p h o => issues app p h o ∧ slotIssues p h o)
    (Q := fun p h a => returns app p h a ∧ slotReturns p h a)
    (fun _ _ _ _ _ he => exec_valid he) (fun p => (body_emits app p).and (body_slots app p)) ?_ ?_ hr
  · refine ⟨⟨@oneTask app (fun _ _ => True) _ .init, ?_, ?_, ?_⟩, ?_, ?_⟩
    · intro q c m u hev
      cases hev
    · intro q c m hp
      cases hp
    · intro q q' i hq
      cases hq
    · intro q c m hp
      cases hp
    · refine fun consumer => ⟨List.nodup_nil, fun x => ?_, rfl, rfl⟩
      constructor
      · intro hx
        cases hx
      · intro hx
        cases x with
        | loop pid =>
          obtain ⟨⟨fuel, hp⟩, -⟩ := hx
          cases hp
        | task i =>
          obtain ⟨⟨q, m, u, hmem, -⟩, -⟩ := hx
          cases hmem
  · intro σ ev σ' hI hm _ ht
    exact hI.move hm (ht.mono (fun _ _ _ ho => ho.1) fun _ _ _ ha => ha.1)
      (ht.mono (fun _ _ _ ho => ho.2) fun _ _ _ ha => ha.2)

end Runs

/-- A pull loop of this worker holds a slot of its own. -/
def Pulling (consumer : String) (l : List Ev) (pid : Nat) : Prop :=
  (∃ fuel, proc? pid l = some (.workerLoop consumer fuel)) ∧ holding (own pid l) = true

/-- A task of this worker is unfinished: its slot is not given back. -/
def AtWork (consumer : String) (l : List Ev) (pid : Nat) : Prop :=
  ∃ m, proc? pid l = some (.runOne consumer m) ∧ ¬ Released (own pid l)

structure SlotLaw (app : App) (consumer : String) (σ : State) : Prop where
  bounded : σ.world.inUse consumer ≤ app.settings.workerConcurrency
  /-- The counter is the loop's own slot and one for each unfinished task. -/
  counted : ∃ loops tasks : List Nat, loops.Nodup ∧ tasks.Nodup ∧
    (∀ pid, pid ∈ loops ↔ Pulling consumer σ.log pid) ∧
    (∀ pid, pid ∈ tasks ↔ AtWork consumer σ.log pid) ∧
    σ.world.inUse consumer = loops.length + tasks.length
  /-- No slot is given back that was not taken. -/
  tallied : σ.world.inUse consumer + σ.log.countP (returnsSlot consumer) =
    σ.log.countP (takesSlot consumer)
  running : ∀ pids : List Nat, pids.Nodup → (∀ pid ∈ pids, AtWork consumer σ.log pid) →
    pids.length ≤ app.settings.workerConcurrency
  /-- A worker whose processes have all returned has given every slot back. -/
  drained : (∀ pid p, proc? pid σ.log = some p → p.worker = some consumer →
    live pid σ.log = false ∧ .crash pid ∉ σ.log) → σ.world.inUse consumer = 0

theorem inUse_bounded {ok : State → Ev → Prop} {c : Cfg} (hr : Run (system app) ok c)
    (consumer : String) : c.shared.world.inUse consumer ≤ app.settings.workerConcurrency := by
  refine run_inv (I := fun σ : State => σ.world.inUse consumer ≤ app.settings.workerConcurrency)
    (Nat.zero_le _) ?_ hr
  intro σ ev σ' hI hm _ _
  cases hm with
  | act pid o e he =>
    have huse := exec_inUse he consumer
    cases o with
    | semAcquire c' =>
      simp only [system, exec] at he
      split at he
      · rename_i hlt
        dsimp only at huse
        split at huse
        · rename_i hc
          rw [huse, hc]
          exact hlt
        · rw [huse]
          exact hI
      · cases he
    | semRelease c' =>
      dsimp only at huse
      split at huse
      · rw [huse]
        exact (Nat.sub_le _ _).trans hI
      · rw [huse]
        exact hI
    | _ => exact huse ▸ hI
  | _ => exact hI

section Holders

variable {σ : State} {consumer : String} {pid : Nat}

theorem Pulling.mem_pids (h : Pulling consumer σ.log pid) : pid ∈ σ.log.map Event.pid := by
  obtain ⟨⟨fuel, hp⟩, -⟩ := h
  exact List.mem_map.2 ⟨_, mem_of_proc? hp, rfl⟩

theorem AtWork.mem_pids (h : AtWork consumer σ.log pid) : pid ∈ σ.log.map Event.pid := by
  obtain ⟨m, hp, -⟩ := h
  exact List.mem_map.2 ⟨_, mem_of_proc? hp, rfl⟩

theorem SlotInv.holder_atWork (h : SlotInv σ) (hw : AtWork consumer σ.log pid) :
    ∃ i, holder σ.log pid = .task i ∧ taskEntry σ.log pid = some i ∧
      HoldsSlot consumer σ.log (.task i) := by
  obtain ⟨m, hm, hfree⟩ := hw
  have htask := taskEntry_of_proc hm
  refine ⟨_, by rw [holder, htask], htask, h.born pid consumer m hm, fun q m' hq hi => ?_⟩
  have hqp := h.tasks.once q pid m.messageId (hi ▸ taskEntry_of_proc hq) htask
  exact hqp ▸ hfree

/-- The processes that hold a slot, against the list of the holders. -/
theorem SlotInv.holders (h : SlotInv σ) (hborn : ∀ i, Tasked consumer σ.log i →
      ∃ pid m, proc? pid σ.log = some (.runOne consumer m) ∧ m.messageId = i)
    {loops tasks : List Nat} (hl : loops.Nodup) (ht : tasks.Nodup)
    (hloops : ∀ pid, pid ∈ loops ↔ Pulling consumer σ.log pid)
    (htasks : ∀ pid, pid ∈ tasks ↔ AtWork consumer σ.log pid) :
    (loops.map SlotHolder.loop ++ tasks.map (holder σ.log)).Perm (slots consumer σ.log) := by
  have hinj : (tasks.map (holder σ.log)).Nodup := by
    refine ht.map_on fun q hq q' hq' heq => ?_
    obtain ⟨i, hi, hqi, -⟩ := h.holder_atWork ((htasks q).1 hq)
    obtain ⟨i', hi', hqi', -⟩ := h.holder_atWork ((htasks q').1 hq')
    rw [hi, hi', SlotHolder.task.injEq] at heq
    exact h.tasks.once q q' i hqi (heq ▸ hqi')
  have hdisj : (loops.map SlotHolder.loop).Disjoint (tasks.map (holder σ.log)) := by
    intro x hx hx'
    obtain ⟨q, -, rfl⟩ := List.mem_map.1 hx
    obtain ⟨q', hq', heq⟩ := List.mem_map.1 hx'
    obtain ⟨i, hi, -⟩ := h.holder_atWork ((htasks q').1 hq')
    rw [hi] at heq
    cases heq
  refine (List.perm_ext_iff_of_nodup
    (List.nodup_append'.2 ⟨hl.map fun _ _ => SlotHolder.loop.inj, hinj, hdisj⟩)
    (h.held consumer).nodup).2 fun x => ?_
  rw [(h.held consumer).exact, List.mem_append]
  constructor
  · rintro (hx | hx)
    · obtain ⟨q, hq, rfl⟩ := List.mem_map.1 hx
      exact (hloops q).1 hq
    · obtain ⟨q, hq, rfl⟩ := List.mem_map.1 hx
      obtain ⟨i, hi, -, hheld⟩ := h.holder_atWork ((htasks q).1 hq)
      rwa [hi]
  · intro hx
    cases x with
    | loop q => exact .inl (List.mem_map_of_mem ((hloops q).2 hx))
    | task i =>
      obtain ⟨q, m, hq, rfl⟩ := hborn i hx.1
      refine .inr (List.mem_map.2 ⟨q, (htasks q).2 ⟨m, hq, hx.2 q m hq rfl⟩, ?_⟩)
      rw [holder, taskEntry_of_proc hq]

theorem SlotInv.counted (h : SlotInv σ) (hborn : ∀ i, Tasked consumer σ.log i →
      ∃ pid m, proc? pid σ.log = some (.runOne consumer m) ∧ m.messageId = i) :
    ∃ loops tasks : List Nat, loops.Nodup ∧ tasks.Nodup ∧
      (∀ pid, pid ∈ loops ↔ Pulling consumer σ.log pid) ∧
      (∀ pid, pid ∈ tasks ↔ AtWork consumer σ.log pid) ∧
      σ.world.inUse consumer = loops.length + tasks.length := by
  classical
  have hmem : ∀ (P : Nat → Prop), (∀ pid, P pid → pid ∈ σ.log.map Event.pid) →
      ∀ pid, pid ∈ (σ.log.map Event.pid).dedup.filter (fun q => decide (P q)) ↔ P pid := by
    intro P hP pid
    rw [List.mem_filter, List.mem_dedup, decide_eq_true_eq]
    exact ⟨And.right, fun hp => ⟨hP pid hp, hp⟩⟩
  have hloops := hmem (Pulling consumer σ.log) fun _ => Pulling.mem_pids
  have htasks := hmem (AtWork consumer σ.log) fun _ => AtWork.mem_pids
  have hl := (List.nodup_dedup (σ.log.map Event.pid)).filter fun q =>
    decide (Pulling consumer σ.log q)
  have ht := (List.nodup_dedup (σ.log.map Event.pid)).filter fun q =>
    decide (AtWork consumer σ.log q)
  refine ⟨_, _, hl, ht, hloops, htasks, ?_⟩
  have hlen := (h.holders hborn hl ht hloops htasks).length_eq
  rw [List.length_append, List.length_map, List.length_map, (h.held consumer).counted] at hlen
  exact hlen.symm

end Holders

theorem slotLaw (app : App) (c : Cfg) (hr : Reachable (system app) c) (consumer : String) :
    SlotLaw app consumer c.shared := by
  have hI := slotInv hr
  have hborn : ∀ i, Tasked consumer c.shared.log i →
      ∃ pid m, proc? pid c.shared.log = some (.runOne consumer m) ∧ m.messageId = i := by
    rintro i ⟨q, m, u, hev, hi⟩
    obtain ⟨pid, hp⟩ := hr.forked q _ u _ hev rfl
    exact ⟨pid, m, hp, hi⟩
  have hbound := inUse_bounded hr consumer
  obtain ⟨loops, tasks, hl, ht, hloops, htasks, huse⟩ := hI.counted hborn
  refine ⟨hbound, ⟨loops, tasks, hl, ht, hloops, htasks, huse⟩, (hI.held consumer).tallied, ?_, ?_⟩
  · intro pids hn hp
    have hle := (hn.subperm fun pid hpid => (htasks pid).2 (hp pid hpid)).length_le
    omega
  · intro hover
    have hreturned : ∀ pid p, proc? pid c.shared.log = some p → p.worker = some consumer →
        ∃ a, slotReturns p (own pid c.shared.log) a := by
      intro pid p hp hw
      obtain ⟨hlive, hcrash⟩ := hover pid p hp hw
      exact (Run.over (fun _ _ _ _ _ he => exec_valid he) (body_slots app) hr pid p hp
        hlive).resolve_left hcrash
    have hnoLoop : loops = [] := by
      refine List.eq_nil_iff_forall_not_mem.2 fun pid hpid => ?_
      obtain ⟨⟨fuel, hp⟩, hh⟩ := (hloops pid).1 hpid
      obtain ⟨a, ha⟩ := hreturned pid _ hp rfl
      change holding _ = false at ha
      rw [hh] at ha
      cases ha
    have hnoTask : tasks = [] := by
      refine List.eq_nil_iff_forall_not_mem.2 fun pid hpid => ?_
      obtain ⟨m, hp, hfree⟩ := (htasks pid).1 hpid
      obtain ⟨a, ha⟩ := hreturned pid _ hp rfl
      exact hfree ha
    rw [huse, hnoLoop, hnoTask]
    rfl

/-- A worker has one task at work, and its loop holds another slot. -/
def oneAtWork : List (Choice Env Proc) := List.flatten
  [[.start (.submitJob 7 1 { type := .email, payload := .null })], runs 0 5,
    [.start (.workerLoop "a" 2)], runs 1 7]

theorem slotLaw_oneAtWork : ∃ c, Reachable (system defaultApp) c ∧
    c.shared.world.inUse "a" = 2 ∧ SlotLaw defaultApp "a" c.shared := by
  obtain ⟨c, hc, hl⟩ := reachable_of_replay defaultApp oneAtWork
    (fun c => decide (c.shared.world.inUse "a" = 2)) (by decide +kernel)
  exact ⟨c, hc, of_decide_eq_true hl, slotLaw defaultApp c hc "a"⟩

end JobProcessor
