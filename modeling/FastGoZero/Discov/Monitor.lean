import FastGoZero.Discov.Convergence

/-!
# Registering a listener late

`Monitor` on a key that is already watched reads the current pairs, replays them to
the new listener, appends it to the listeners and loads a snapshot, each in a section
of its own. Goroutines that handle watch responses and loads run in between: each
copies the listeners, changes the pairs and then notifies the listeners it copied.
The new listener ends up with the pairs of the cluster when no change slips past it
and no notification is overtaken by a change of the same etcd key.
-/

namespace FastGoZero.Discov

open Lib Container Cluster List

/-- A goroutine inside a handler: the listeners it copied, the watch events it has not
applied and the notifications it has not made. -/
structure Handler where
  listeners : List Nat
  events : List Event
  notes : List Delivery

def Handler.idle : Handler := ⟨[], [], []⟩

def Handler.isIdle (h : Handler) : Bool := h.events.isEmpty && h.notes.isEmpty

/-- How far `Monitor` has come. -/
inductive Phase where
  | entered
  | replaying (kvs : List KV)
  | registered
  | returned
deriving DecidableEq

def Phase.Unregistered : Phase → Prop
  | .entered | .replaying _ => True
  | .registered | .returned => False

/-- The pairs that `Monitor` still has to replay. -/
def Phase.remaining : Phase → List KV
  | .replaying kvs => kvs
  | _ => []

structure Monitoring where
  cluster : Cluster
  phase : Phase
  handlers : Nat → Handler
  heard : List Notification

/-- The next step of `Monitor` or of a goroutine. -/
inductive Action where
  | getCurrent (visit : GoMap.RangeOrder String String)
  | replay
  | register
  | clientFails
  | load (id : Nat) (kvs : List KV) (orders : ChangeOrders)
  | reload (id : Nat) (kvs : List KV) (orders : ChangeOrders)
  | watch (id : Nat) (events : List Event)
  | proceed (id : Nat)

namespace Monitoring

variable (key : String) (listener : Nat) (s : Monitoring)

/-- A load by the goroutine: the locked section of `handleChanges`. -/
def startChanges (id : Nat) (kvs : List KV) (orders : ChangeOrders) : Monitoring :=
  let (after, sent) := s.cluster.handleChanges key kvs orders
  { s with
    cluster := after
    handlers := Function.update s.handlers id ⟨s.cluster.listenersOf key, [], sent⟩ }

/-- A watch response reaches the goroutine, which copies the listeners. -/
def startWatch (id : Nat) (events : List Event) : Monitoring :=
  { s with
    handlers := Function.update s.handlers id ⟨s.cluster.listenersOf key, events, []⟩ }

/-- The goroutine makes its next notification, or applies its next event. -/
def proceed (id : Nat) : Monitoring :=
  let h := s.handlers id
  match h.notes with
  | delivery :: rest =>
    { s with
      handlers := Function.update s.handlers id { h with notes := rest }
      heard := if delivery.listener = listener then s.heard ++ [delivery.note] else s.heard }
  | [] =>
    match h.events with
    | [] => s
    | ev :: rest =>
      let (after, sent) := watchStep key h.listeners s.cluster ev
      { s with
        cluster := after
        handlers := Function.update s.handlers id { h with events := rest, notes := sent } }

def registerListener : Monitoring :=
  { s with
    cluster := { s.cluster with
      listeners := s.cluster.listeners.insert key (s.cluster.listenersOf key ++ [listener]) }
    phase := .registered }

def step : Action → Monitoring × List Unit
  | .getCurrent visit =>
    match s.phase with
    | .entered => ({ s with phase := .replaying (s.cluster.getCurrent key visit) }, [])
    | _ => (s, [])
  | .replay =>
    match s.phase with
    | .replaying (kv :: rest) =>
      ({ s with phase := .replaying rest, heard := s.heard ++ [.onAdd kv] }, [])
    | _ => (s, [])
  | .register =>
    match s.phase with
    | .replaying [] => (s.registerListener key listener, [])
    | _ => (s, [])
  | .clientFails =>
    match s.phase with
    | .registered => ({ s with phase := .returned }, [])
    | _ => (s, [])
  | .load id kvs orders =>
    if s.phase = .registered ∧ (s.handlers id).isIdle then
      ({ s.startChanges key id kvs orders with phase := .returned }, [])
    else (s, [])
  | .reload id kvs orders =>
    if (s.handlers id).isIdle then (s.startChanges key id kvs orders, []) else (s, [])
  | .watch id events =>
    if (s.handlers id).isIdle then (s.startWatch key id events, []) else (s, [])
  | .proceed id => (s.proceed key listener id, [])

/-- A notification about the etcd key is on its way to the listener. -/
def Pending (etcdKey : String) : Prop :=
  ∃ id, ∃ delivery ∈ (s.handlers id).notes,
    delivery.listener = listener ∧ delivery.note.key = etcdKey

/-- The pairs may change to the target: no change overtakes a notification on its way
to the listener, and a handler without the listener changes nothing once `Monitor` has
read the pairs. -/
structure MayChange (s : Monitoring) (told : Prop) (target : Pairs) : Prop where
  settled : ∀ etcdKey, s.cluster.pairs key etcdKey ≠ target etcdKey → ¬ s.Pending listener etcdKey
  noticed : s.phase ≠ .entered → ¬ told → target = s.cluster.pairs key

/-- The condition on a step. A load that the listener is told about must also not give
a present etcd key a different value. -/
def Allowed : Action → Prop
  | .load _ kvs _ | .reload _ kvs _ =>
    s.MayChange key listener (listener ∈ s.cluster.listenersOf key) (snapshotPairs kvs) ∧
      (listener ∈ s.cluster.listenersOf key →
        Unambiguous kvs ∧ Agree (s.cluster.pairs key) (snapshotPairs kvs))
  | .proceed id =>
    match (s.handlers id).notes, (s.handlers id).events with
    | [], ev :: _ => s.MayChange key listener (listener ∈ (s.handlers id).listeners)
        (eventPairs (s.cluster.pairs key) ev)
    | _, _ => True
  | _ => True

structure Inv (s : Monitoring) : Prop where
  registered : listener ∈ s.cluster.listenersOf key ↔ ¬ s.phase.Unregistered
  copied : ∀ id, s.phase.Unregistered → listener ∉ (s.handlers id).listeners
  sent : ∀ id, ∀ delivery ∈ (s.handlers id).notes, delivery.listener = listener →
    listener ∈ (s.handlers id).listeners
  toward : ∀ id, ∀ delivery ∈ (s.handlers id).notes, delivery.listener = listener →
    s.cluster.pairs key delivery.note.key = delivery.note.outcome
  replays : ∀ kv ∈ s.phase.remaining, s.cluster.pairs key kv.key = some kv.val
  silent : s.phase = .entered → s.heard = []
  caught : ∀ etcdKey, s.phase = .entered ∨ etcdKey ∈ s.phase.remaining.map KV.key ∨
    s.Pending listener etcdKey ∨
      amount (fun _ => none) s.heard etcdKey = s.cluster.pairs key etcdKey

variable {key listener} {notes : List Notification} {listeners : List Nat}

theorem amount_snoc (pairs : Pairs) (notes : List Notification) (note : Notification) :
    amount pairs (notes ++ [note]) = note.apply (amount pairs notes) := by
  simp [amount]

theorem deliveries_listener {delivery : Delivery} (mem : delivery ∈ deliveries listeners notes) :
    delivery.listener ∈ listeners ∧ delivery.note ∈ notes := by
  simp only [deliveries, mem_flatMap, mem_map] at mem
  obtain ⟨note, sent, target, registered, rfl⟩ := mem
  exact ⟨registered, sent⟩

theorem mem_deliveries {target : Nat} {note : Notification} (registered : target ∈ listeners)
    (sent : note ∈ notes) : ⟨target, note⟩ ∈ deliveries listeners notes := by
  simp only [deliveries, mem_flatMap, mem_map]
  exact ⟨note, sent, target, registered, rfl⟩

section

variable {s : Monitoring} (inv : s.Inv key listener)

include inv

/-- `Monitor` goes on to replay pairs. -/
theorem replaying_inv {kvs : List KV} {heard : List Notification}
    (unregistered : s.phase.Unregistered)
    (replays : ∀ kv ∈ kvs, s.cluster.pairs key kv.key = some kv.val)
    (caught : ∀ etcdKey, etcdKey ∈ kvs.map KV.key ∨ s.Pending listener etcdKey ∨
      amount (fun _ => none) heard etcdKey = s.cluster.pairs key etcdKey) :
    ({ s with phase := .replaying kvs, heard } : Monitoring).Inv key listener := by
  refine ⟨?_, fun id _ => inv.copied id unregistered, inv.sent, inv.toward, replays, nofun,
    fun etcdKey => Or.inr (caught etcdKey)⟩
  have before := inv.registered
  simp only [unregistered, not_true_eq_false, iff_false] at before
  simpa [Phase.Unregistered] using before

theorem getCurrent_inv (visit : GoMap.RangeOrder String String) (entered : s.phase = .entered) :
    ({ s with phase := .replaying (s.cluster.getCurrent key visit) } : Monitoring).Inv
      key listener := by
  refine replaying_inv inv (by rw [entered]; trivial)
    (fun kv => (mem_getCurrent s.cluster key visit kv).mp) fun etcdKey => ?_
  cases held : s.cluster.pairs key etcdKey with
  | none =>
    rw [inv.silent entered]
    exact Or.inr (Or.inr rfl)
  | some value =>
    exact Or.inl (mem_map.mpr
      ⟨⟨etcdKey, value⟩, (mem_getCurrent s.cluster key visit _).mpr held, rfl⟩)

theorem replay_inv {kv : KV} {rest : List KV} (replaying : s.phase = .replaying (kv :: rest)) :
    ({ s with phase := .replaying rest, heard := s.heard ++ [.onAdd kv] } : Monitoring).Inv
      key listener := by
  have remaining : s.phase.remaining = kv :: rest := by rw [replaying]; rfl
  refine replaying_inv inv (by rw [replaying]; trivial)
    (fun other mem => inv.replays other (remaining ▸ mem_cons_of_mem _ mem)) fun etcdKey => ?_
  rw [amount_snoc]
  by_cases own : etcdKey = kv.key
  · subst own
    rw [inv.replays kv (remaining ▸ mem_cons_self)]
    exact Or.inr (Or.inr (Function.update_self _ _ _))
  · rcases inv.caught etcdKey with impossible | listed | pending | same
    · rw [replaying] at impossible
      cases impossible
    · rw [remaining, map_cons, mem_cons] at listed
      exact Or.inl (listed.resolve_left own)
    · exact Or.inr (Or.inl pending)
    · rw [← same]
      exact Or.inr (Or.inr (Function.update_of_ne own _ _))

theorem registerListener_inv (replayed : s.phase = .replaying []) :
    (s.registerListener key listener).Inv key listener := by
  have remaining : s.phase.remaining = [] := by rw [replayed]; rfl
  refine ⟨?_, nofun, inv.sent, inv.toward, nofun, nofun, ?_⟩
  · have listens : (s.registerListener key listener).cluster.listenersOf key =
        s.cluster.listenersOf key ++ [listener] := by
      simp [registerListener, listenersOf]
    rw [listens]
    simp [registerListener, Phase.Unregistered]
  · intro etcdKey
    rcases inv.caught etcdKey with entered | listed | pending | same
    · rw [replayed] at entered
      cases entered
    · rw [remaining] at listed
      cases listed
    · exact Or.inr (Or.inr (Or.inl pending))
    · exact Or.inr (Or.inr (Or.inr same))

variable (id : Nat)

/-- A goroutine with no notifications left takes up new work and may change the pairs. -/
theorem takeUp_inv (events : List Event) (notes : List Notification) (after : Cluster)
    (quiet : (s.handlers id).notes = []) (kept : after.listeners = s.cluster.listeners)
    (may : s.MayChange key listener (listener ∈ listeners) (after.pairs key))
    (copied : s.phase.Unregistered → listener ∉ listeners)
    (toward : listener ∈ listeners → ∀ note ∈ notes, after.pairs key note.key = note.outcome)
    (covers : ∀ etcdKey, s.cluster.pairs key etcdKey ≠ after.pairs key etcdKey →
      ∃ note ∈ notes, note.key = etcdKey) :
    ({ s with
      cluster := after
      handlers := Function.update s.handlers id
        ⟨listeners, events, deliveries listeners notes⟩ } : Monitoring).Inv key listener := by
  have unchanged : s.phase ≠ .entered → s.phase.Unregistered →
      after.pairs key = s.cluster.pairs key :=
    fun started unregistered => may.noticed started (copied unregistered)
  refine ⟨?_, ?_, ?_, ?_, ?_, inv.silent, ?_⟩
  · rw [← inv.registered, listenersOf, listenersOf, kept]
  · exact (Function.forall_update_iff s.handlers fun _ h =>
      s.phase.Unregistered → listener ∉ h.listeners).mpr ⟨copied, fun other _ => inv.copied other⟩
  · exact (Function.forall_update_iff s.handlers fun _ h => ∀ delivery ∈ h.notes,
      delivery.listener = listener → listener ∈ h.listeners).mpr
        ⟨fun _ mem mine => mine ▸ (deliveries_listener mem).1, fun other _ => inv.sent other⟩
  · refine (Function.forall_update_iff s.handlers fun _ h => ∀ delivery ∈ h.notes,
      delivery.listener = listener →
        after.pairs key delivery.note.key = delivery.note.outcome).mpr ⟨?_, ?_⟩
    · intro delivery mem mine
      obtain ⟨told, note⟩ := deliveries_listener mem
      exact toward (mine ▸ told) _ note
    intro other _ delivery mem mine
    have same : s.cluster.pairs key delivery.note.key = after.pairs key delivery.note.key := by
      by_contra changed
      exact may.settled _ changed ⟨other, delivery, mem, mine, rfl⟩
    exact same.symm.trans (inv.toward other delivery mem mine)
  · intro kv mem
    cases phase : s.phase with
    | replaying kvs =>
      have same := unchanged (by simp [phase]) (by rw [phase]; trivial)
      exact same ▸ inv.replays kv mem
    | entered | registered | returned => simp [phase, Phase.remaining] at mem
  · intro etcdKey
    by_cases changed : s.cluster.pairs key etcdKey = after.pairs key etcdKey
    · rcases inv.caught etcdKey with entered | listed | pending | same
      · exact Or.inl entered
      · exact Or.inr (Or.inl listed)
      · obtain ⟨other, delivery, mem, mine, about⟩ := pending
        have different : other ≠ id := by
          rintro rfl
          rw [quiet] at mem
          cases mem
        refine Or.inr (Or.inr (Or.inl ⟨other, delivery, ?_, mine, about⟩))
        simpa [Function.update_of_ne different] using mem
      · exact Or.inr (Or.inr (Or.inr (same.trans changed)))
    · by_cases entered : s.phase = .entered
      · exact Or.inl entered
      · by_cases told : listener ∈ listeners
        · obtain ⟨note, sent, about⟩ := covers etcdKey changed
          refine Or.inr (Or.inr (Or.inl ⟨id, ⟨listener, note⟩, ?_, rfl, about⟩))
          simpa using mem_deliveries told sent
        · exact absurd (congrFun (may.noticed entered told) etcdKey).symm changed

theorem startChanges_inv (kvs : List KV) (orders : ChangeOrders)
    (quiet : (s.handlers id).notes = [])
    (may : s.MayChange key listener (listener ∈ s.cluster.listenersOf key) (snapshotPairs kvs))
    (keeps : listener ∈ s.cluster.listenersOf key →
      Unambiguous kvs ∧ Agree (s.cluster.pairs key) (snapshotPairs kvs)) :
    (s.startChanges key id kvs orders).Inv key listener := by
  have pairs : (s.cluster.changes key kvs orders).1.pairs key = snapshotPairs kvs := by
    rw [changes_pairs, if_pos rfl]
  apply takeUp_inv inv id [] _ (s.cluster.changes key kvs orders).1 quiet
    (handleChanges_listeners s.cluster key kvs orders) (pairs ▸ may)
  · intro unregistered told
    exact inv.registered.mp told unregistered
  · intro told
    obtain ⟨unambiguous, agree⟩ := keeps told
    rw [pairs]
    exact changes_toward s.cluster key kvs orders unambiguous agree
  · rw [pairs]
    exact changes_cover s.cluster key kvs orders

theorem startWatch_inv (events : List Event) (quiet : (s.handlers id).notes = []) :
    (s.startWatch key id events).Inv key listener := by
  apply takeUp_inv inv id events [] s.cluster quiet rfl
  · exact ⟨fun _ changed => absurd rfl changed, fun _ _ => rfl⟩
  · intro unregistered told
    exact inv.registered.mp told unregistered
  · nofun
  · intro etcdKey changed
    exact absurd rfl changed

theorem applyNext_inv (ev : Event) (rest : List Event) (quiet : (s.handlers id).notes = [])
    (may : s.MayChange key listener (listener ∈ (s.handlers id).listeners)
      (eventPairs (s.cluster.pairs key) ev)) :
    ({ s with
      cluster := s.cluster.applyEvent key ev
      handlers := Function.update s.handlers id ⟨(s.handlers id).listeners, rest,
        deliveries (s.handlers id).listeners (eventNotes ev)⟩ } : Monitoring).Inv key listener := by
  have pairs : (s.cluster.applyEvent key ev).pairs key = eventPairs (s.cluster.pairs key) ev := by
    rw [applyEvent_pairs, if_pos rfl]
  apply takeUp_inv inv id _ _ _ quiet (applyEvent_listeners s.cluster key ev) (pairs ▸ may)
  · exact inv.copied id
  · rw [pairs]
    exact fun _ => event_toward _ ev
  · rw [pairs]
    exact event_cover _ ev

/-- Making a notification: the listener's own brings the key to its pair. -/
theorem deliver_inv (delivery : Delivery) (rest : List Delivery)
    (waiting : (s.handlers id).notes = delivery :: rest) :
    ({ s with
      handlers := Function.update s.handlers id { s.handlers id with notes := rest }
      heard := if delivery.listener = listener then s.heard ++ [delivery.note] else s.heard } :
        Monitoring).Inv key listener := by
  have listeners : ∀ other, (Function.update s.handlers id { s.handlers id with notes := rest }
      other).listeners = (s.handlers other).listeners :=
    (Function.forall_update_iff s.handlers fun other h =>
      h.listeners = (s.handlers other).listeners).mpr ⟨rfl, fun _ _ => rfl⟩
  have notes : ∀ other, ∀ d ∈ (Function.update s.handlers id
      { s.handlers id with notes := rest } other).notes, d ∈ (s.handlers other).notes := by
    refine (Function.forall_update_iff s.handlers fun other h =>
      ∀ d ∈ h.notes, d ∈ (s.handlers other).notes).mpr ⟨fun d mem => ?_, fun _ _ _ mem => mem⟩
    rw [waiting]
    exact mem_cons_of_mem _ mem
  have head : delivery ∈ (s.handlers id).notes := waiting ▸ mem_cons_self
  refine ⟨inv.registered, ?_, ?_, ?_, inv.replays, ?_, ?_⟩
  · intro other unregistered
    exact (listeners other).symm ▸ inv.copied other unregistered
  · intro other d mem mine
    exact (listeners other).symm ▸ inv.sent other d (notes other d mem) mine
  · intro other d mem mine
    exact inv.toward other d (notes other d mem) mine
  · intro entered
    have foreign : delivery.listener ≠ listener := fun mine =>
      inv.copied id (by rw [show s.phase = .entered from entered]; trivial)
        (inv.sent id delivery head mine)
    simpa [foreign] using inv.silent entered
  · intro etcdKey
    by_cases now : delivery.listener = listener ∧ delivery.note.key = etcdKey
    · obtain ⟨mine, rfl⟩ := now
      refine Or.inr (Or.inr (Or.inr ?_))
      have brought := inv.toward id delivery head mine
      simp only [mine, ↓reduceIte, amount_snoc]
      exact (Function.update_self _ _ _).trans brought.symm
    · rcases inv.caught etcdKey with entered | listed | pending | same
      · exact Or.inl entered
      · exact Or.inr (Or.inl listed)
      · obtain ⟨other, d, mem, mine, about⟩ := pending
        refine Or.inr (Or.inr (Or.inl ⟨other, d, ?_, mine, about⟩))
        by_cases own : other = id
        · subst own
          rw [waiting, mem_cons] at mem
          have later : d ∈ rest := mem.resolve_left fun same => now (same ▸ ⟨mine, about⟩)
          simpa using later
        · simpa [Function.update_of_ne own] using mem
      · refine Or.inr (Or.inr (Or.inr ?_))
        split_ifs with mine
        · have elsewhere : etcdKey ≠ delivery.note.key := fun equal => now ⟨mine, equal.symm⟩
          rw [amount_snoc]
          exact (Function.update_of_ne elsewhere _ _).trans same
        · exact same

theorem proceed_inv (allowed : s.Allowed key listener (.proceed id)) :
    (s.proceed key listener id).Inv key listener := by
  dsimp only [proceed]
  split
  · rename_i delivery rest waiting
    exact deliver_inv inv id delivery rest waiting
  · rename_i quiet
    split
    · exact inv
    · rename_i ev rest left
      simp only [Allowed, quiet, left] at allowed
      exact applyNext_inv inv id ev rest quiet allowed

omit inv in
theorem Handler.notes_of_isIdle {h : Handler} (idle : h.isIdle = true) : h.notes = [] := by
  simp only [Handler.isIdle, Bool.and_eq_true, List.isEmpty_iff] at idle
  exact idle.2

theorem return_inv (phase : s.phase = .registered) :
    ({ s with phase := .returned } : Monitoring).Inv key listener := by
  have registered := inv.registered
  rw [phase] at registered
  refine ⟨registered, nofun, inv.sent, inv.toward, nofun, nofun, ?_⟩
  intro etcdKey
  rcases inv.caught etcdKey with entered | listed | caught
  · rw [phase] at entered
    cases entered
  · rw [phase] at listed
    cases listed
  · exact Or.inr (Or.inr caught)

theorem step_inv (action : Action) (allowed : s.Allowed key listener action) :
    (s.step key listener action).1.Inv key listener := by
  revert allowed
  fun_cases step key listener s action with
  | case1 visit entered => exact fun _ => getCurrent_inv inv visit entered
  | case3 kv rest replaying => exact fun _ => replay_inv inv replaying
  | case5 replayed => exact fun _ => registerListener_inv inv replayed
  | case7 phase => exact fun _ => return_inv inv phase
  | case9 id kvs orders enabled =>
    intro allowed
    have changed := startChanges_inv inv id kvs orders (Handler.notes_of_isIdle enabled.2)
      allowed.1 allowed.2
    exact return_inv changed enabled.1
  | case11 id kvs orders idle =>
    exact fun allowed =>
      startChanges_inv inv id kvs orders (Handler.notes_of_isIdle idle) allowed.1 allowed.2
  | case13 id events idle =>
    exact fun _ => startWatch_inv inv id events (Handler.notes_of_isIdle idle)
  | case15 id => exact proceed_inv inv id
  | _ => exact fun _ => inv

end

/-- `Monitor` is about to run for a listener that nobody knows yet. -/
structure Fresh (s : Monitoring) (key : String) (listener : Nat) : Prop where
  entered : s.phase = .entered
  unregistered : listener ∉ s.cluster.listenersOf key
  uncopied : ∀ id, listener ∉ (s.handlers id).listeners
  unsent : ∀ id, ∀ delivery ∈ (s.handlers id).notes, delivery.listener ≠ listener
  silent : s.heard = []

theorem Fresh.inv {s : Monitoring} (fresh : s.Fresh key listener) : s.Inv key listener where
  registered := by
    rw [fresh.entered]
    exact iff_of_false fresh.unregistered fun denied => denied trivial
  copied id _ := fresh.uncopied id
  sent id delivery mem mine := absurd mine (fresh.unsent id delivery mem)
  toward id delivery mem mine := absurd mine (fresh.unsent id delivery mem)
  replays kv mem := by
    rw [fresh.entered] at mem
    cases mem
  silent _ := fresh.silent
  caught _ := Or.inl fresh.entered

/-- `Monitor` has returned and no notification is in progress. -/
def Quiescent : Prop :=
  s.phase = .returned ∧ ∀ id, (s.handlers id).notes = []

/-- In a run in which no change slips past the listener and none overtakes a
notification on its way to it, what the listener heard amounts to the pairs of the
cluster once `Monitor` has returned and no notification is in progress. -/
theorem heard_amounts_to_pairs (key : String) (listener : Nat) (start : Monitoring)
    (fresh : start.Fresh key listener) (actions : List Action)
    (allowed : Runs.Meets (step key listener) (Allowed key listener) start actions)
    (quiescent : (Runs.run (step key listener) start actions).1.Quiescent) :
    amount (fun _ => none) (Runs.run (step key listener) start actions).1.heard =
      (Runs.run (step key listener) start actions).1.cluster.pairs key := by
  have inv := Runs.run_invariant (step key listener) (Allowed key listener) (Inv key listener)
    (fun _ action holds met => step_inv holds action met) start actions fresh.inv allowed
  generalize (Runs.run (step key listener) start actions).1 = s at *
  funext etcdKey
  rcases inv.caught etcdKey with entered | listed | pending | same
  · rw [quiescent.1] at entered
    cases entered
  · rw [quiescent.1] at listed
    cases listed
  · obtain ⟨id, delivery, mem, _⟩ := pending
    rw [quiescent.2 id] at mem
    cases mem
  · exact same

/-- A watched key with one listener, no goroutine busy, and `Monitor` called for
another listener. -/
def monitored (vals : GoMap String String) : Monitoring where
  cluster := { watched with values := (∅ : GoMap String (GoMap String String)).insert "svc" vals }
  phase := .entered
  handlers := fun _ => Handler.idle
  heard := []

theorem monitored_fresh (vals : GoMap String String) : (monitored vals).Fresh "svc" 1 where
  entered := rfl
  unregistered := by
    change 1 ∉ [0]
    decide
  uncopied _ := by
    change 1 ∉ []
    decide
  unsent _ _ mem := by cases mem
  silent := rfl

/-- The load of `Monitor` itself brings the first pair. -/
theorem heard_amounts_to_pairs_loaded :
    amount (fun _ => none) (Runs.run (step "svc" 1) (monitored ∅)
      [.getCurrent listed, .register, .load 0 [⟨"svc/1", "a"⟩] ⟨listed, listed⟩, .proceed 0,
        .proceed 0]).1.heard "svc/1" = some "a" :=
  congrFun (heard_amounts_to_pairs "svc" 1 (monitored ∅) (monitored_fresh ∅)
    [.getCurrent listed, .register, .load 0 [⟨"svc/1", "a"⟩] ⟨listed, listed⟩, .proceed 0,
      .proceed 0]
    ⟨trivial, trivial, ⟨⟨fun _ _ ⟨_, _, mem, _⟩ => (by cases mem),
        fun _ untold => absurd (show 1 ∈ [0, 1] by decide) untold⟩,
      fun _ => ⟨by decide, fun _ _ _ held => by cases held⟩⟩, trivial, trivial, trivial⟩
    ⟨rfl, fun id => by cases id <;> rfl⟩) "svc/1"

/-- An etcd key is deleted after `Monitor` has read the pairs and before it registers
the listener: the listener hears of the key and never of its deletion. -/
theorem monitor_misses_deletion :
    let vals := (∅ : GoMap String String).insert "svc/1" "a"
    let final := (Runs.run (step "svc" 1) (monitored vals)
      [.getCurrent listed, .watch 1 [⟨.delete, ⟨"svc/1", ""⟩⟩], .proceed 1, .proceed 1, .replay,
        .register, .load 0 [] ⟨listed, listed⟩]).1
    (monitored vals).Fresh "svc" 1 ∧ final.Quiescent ∧
      amount (fun _ => none) final.heard "svc/1" = some "a" ∧
      final.cluster.pairs "svc" "svc/1" = none := by
  refine ⟨monitored_fresh _, ⟨by decide, ?_⟩, by decide, by decide⟩
  intro id
  match id with
  | 0 | 1 | other + 2 => rfl

end Monitoring

end FastGoZero.Discov
