import FastGoZero.Discov.Cluster
import FastGoZero.Discov.Inverse

/-!
# A subscriber converges to the cluster

A container that listens to a key from before its first load holds the values of the
cluster after every snapshot and every watch response, as long as no step gives an
etcd key that is present a different value. When one does, `handleChanges` adds the
new pair and then deletes the key, and a watch event leaves the old value listed.
-/

namespace FastGoZero.Discov

open Lib Container List Option GoMap

namespace Cluster

variable (kvs : List KV)

/-- No key comes with two values. -/
def Unambiguous : Prop :=
  ∀ first ∈ kvs, ∀ second ∈ kvs, first.key = second.key → first.val = second.val

instance (kvs : List KV) : Decidable (Unambiguous kvs) :=
  inferInstanceAs (Decidable (∀ first ∈ kvs, ∀ second ∈ kvs, _ → _))

/-- What is read from a filled map was written to it or was there before. -/
theorem lookup_fill (m : GoMap String String) (key value : String)
    (found : (kvs.foldl (fun m kv => m.insert kv.key kv.val) m).lookup key = some value) :
    ⟨key, value⟩ ∈ kvs ∨ m.lookup key = some value := by
  induction kvs generalizing m with
  | nil => exact Or.inr found
  | cons kv rest ih =>
    rcases ih _ found with later | before
    · exact Or.inl (mem_cons_of_mem _ later)
    · rw [lookup_insert_if] at before
      split_ifs at before with same
      · cases before
        subst same
        exact Or.inl mem_cons_self
      · exact Or.inr before

theorem lookup_fill_isSome (m : GoMap String String) (key : String)
    (written : key ∈ kvs.map KV.key ∨ (m.lookup key).isSome) :
    ((kvs.foldl (fun m kv => m.insert kv.key kv.val) m).lookup key).isSome := by
  induction kvs generalizing m with
  | nil => simpa using written
  | cons kv rest ih =>
    apply ih
    rw [lookup_insert_if]
    rcases written with listed | before
    · rcases mem_cons.mp listed with same | later
      · simp [same]
      · exact Or.inl later
    · right
      split
      · rfl
      · exact before

variable {key other : String} {c : Cluster} {listener : Nat} {listeners : List Nat}
  {container : Container}

theorem mem_of_lookup_collect {kvs : List KV} {value : String}
    (found : (collect kvs).lookup key = some value) : ⟨key, value⟩ ∈ kvs := by
  rcases lookup_fill kvs ∅ key value found with mem | impossible
  · exact mem
  · cases impossible

theorem lookup_collect {kvs : List KV} (unambiguous : Unambiguous kvs) {kv : KV}
    (mem : kv ∈ kvs) : (collect kvs).lookup kv.key = some kv.val := by
  have written := lookup_fill_isSome kvs ∅ kv.key (Or.inl (mem_map_of_mem mem))
  obtain ⟨value, found⟩ := isSome_iff_exists.mp written
  have listed := mem_of_lookup_collect found
  have same : kv.val = value := unambiguous kv mem ⟨kv.key, value⟩ listed rfl
  exact same ▸ found

def snapshotPairs : Pairs := fun etcdKey => (collect kvs).lookup etcdKey

theorem changes_pairs (c : Cluster) (key probe : String) (kvs : List KV) (orders : ChangeOrders) :
    (c.changes key kvs orders).1.pairs probe =
      if probe = key then snapshotPairs kvs else c.pairs probe := by
  unfold changes
  split <;> exact pairs_insert c key probe (collect kvs)

theorem pairs_of_lookup {vals : GoMap String String}
    (found : c.values.lookup key = some vals) (etcdKey : String) :
    c.pairs key etcdKey = vals.lookup etcdKey := by
  simp [pairs, valuesOf, found]

/-- Where the snapshot contradicts nothing, each notification leads to it. -/
theorem changes_toward (c : Cluster) (key : String) (kvs : List KV) (orders : ChangeOrders)
    (unambiguous : Unambiguous kvs) (agree : Agree (c.pairs key) (snapshotPairs kvs)) :
    Toward (snapshotPairs kvs) (changeNotes (c.changes key kvs orders).2.1
      (c.changes key kvs orders).2.2) := by
  intro note mem
  unfold changes at mem
  cases found : c.values.lookup key with
  | none =>
    simp only [found, changeNotes, map_nil, append_nil] at mem
    obtain ⟨kv, listed, rfl⟩ := mem_map.mp mem
    exact lookup_collect unambiguous listed
  | some vals =>
    simp only [found, changeNotes] at mem
    rcases mem_append.mp mem with added | removed
    · obtain ⟨kv, listed, rfl⟩ := mem_map.mp added
      exact ((mem_missing _ _ _ kv).mp listed).1
    · obtain ⟨kv, listed, rfl⟩ := mem_map.mp removed
      obtain ⟨old, differs⟩ := (mem_missing _ _ _ kv).mp listed
      cases aimed : snapshotPairs kvs kv.key with
      | none => exact aimed
      | some new =>
        have held : c.pairs key kv.key = some kv.val := (pairs_of_lookup found kv.key).trans old
        have same := agree kv.key kv.val new held aimed
        exact absurd aimed (same ▸ differs)

/-- Each key whose pair the snapshot changes is mentioned. -/
theorem changes_cover (c : Cluster) (key : String) (kvs : List KV) (orders : ChangeOrders)
    (etcdKey : String) (differs : c.pairs key etcdKey ≠ snapshotPairs kvs etcdKey) :
    ∃ note ∈ changeNotes (c.changes key kvs orders).2.1 (c.changes key kvs orders).2.2,
      note.key = etcdKey := by
  unfold changes changeNotes
  cases found : c.values.lookup key with
  | none =>
    have nothing : c.pairs key etcdKey = none := by simp [pairs, valuesOf, found]
    cases aimed : snapshotPairs kvs etcdKey with
    | none => exact absurd (nothing.trans aimed.symm) differs
    | some value =>
      refine ⟨.onAdd ⟨etcdKey, value⟩, ?_, rfl⟩
      exact mem_append_left _ (mem_map_of_mem (mem_of_lookup_collect aimed))
  | some vals =>
    rw [pairs_of_lookup found] at differs
    cases aimed : snapshotPairs kvs etcdKey with
    | none =>
      obtain ⟨value, held⟩ := ne_none_iff_exists'.mp (aimed ▸ differs)
      refine ⟨.onDelete ⟨etcdKey, value⟩, mem_append_right _ (mem_map_of_mem ?_), rfl⟩
      rw [mem_missing]
      refine ⟨held, ?_⟩
      change snapshotPairs kvs etcdKey ≠ some value
      rw [aimed]
      exact (some_ne_none value).symm
    | some value =>
      refine ⟨.onAdd ⟨etcdKey, value⟩, mem_append_left _ (mem_map_of_mem ?_), rfl⟩
      rw [mem_missing]
      exact ⟨aimed, aimed ▸ differs⟩

def eventPairs (pairs : Pairs) (ev : Event) : Pairs :=
  match ev.type with
  | .put => Function.update pairs ev.kv.key (some ev.kv.val)
  | .delete => Function.update pairs ev.kv.key none
  | .other _ => pairs

theorem applyEvent_pairs (c : Cluster) (key probe : String) (ev : Event) :
    (c.applyEvent key ev).pairs probe =
      if probe = key then eventPairs (c.pairs key) ev else c.pairs probe := by
  unfold applyEvent eventPairs
  cases ev.type with
  | put =>
    dsimp only
    rw [pairs_insert]
    split
    · funext etcdKey
      rw [lookup_insert_if, Function.update_apply]
      rfl
    · rfl
  | delete =>
    funext etcdKey
    simp only [pairs, valuesOf, lookup_modify]
    by_cases own : probe = key
    · subst own
      cases found : c.values.lookup probe with
      | none => simp [Function.update_apply, pairs, valuesOf, found]
      | some vals =>
        simp [Function.update_apply, pairs, valuesOf, found, lookup_erase_if]
    · simp [own, pairs, valuesOf]
  | other code =>
    split_ifs with own
    · rw [own]
    · rfl

/-- The event does not put a different value at a key that is present. -/
def EventAgrees (pairs : Pairs) (ev : Event) : Prop :=
  ev.type = .put → pairs ev.kv.key = none ∨ pairs ev.kv.key = some ev.kv.val

variable (pairs : Pairs)

theorem event_toward (ev : Event) :
    Toward (eventPairs pairs ev) (eventNotes ev) := by
  intro note mem
  unfold eventNotes at mem
  unfold eventPairs
  cases kind : ev.type with
  | put | delete =>
    simp only [kind, mem_singleton] at mem
    subst mem
    exact Function.update_self _ _ _
  | other code => simp [kind] at mem

theorem event_agree (ev : Event) (agrees : EventAgrees pairs ev) :
    Agree pairs (eventPairs pairs ev) := by
  intro key old new held aimed
  unfold eventPairs at aimed
  cases kind : ev.type with
  | put =>
    simp only [kind, Function.update_apply] at aimed
    split_ifs at aimed with own
    · cases aimed
      rw [own] at held
      rcases agrees kind with absent | same
      · rw [absent] at held
        cases held
      · rw [same] at held
        exact (some.inj held).symm
    · exact some.inj (held.symm.trans aimed)
  | delete =>
    simp only [kind, Function.update_apply] at aimed
    split at aimed
    · cases aimed
    · exact some.inj (held.symm.trans aimed)
  | other code =>
    simp only [kind] at aimed
    exact some.inj (held.symm.trans aimed)

theorem event_cover (ev : Event) (key : String) (differs : pairs key ≠ eventPairs pairs ev key) :
    ∃ note ∈ eventNotes ev, note.key = key := by
  unfold eventPairs at differs
  unfold eventNotes
  cases kind : ev.type with
  | put | delete =>
    simp only [kind, Function.update_apply] at differs
    split_ifs at differs with own
    · exact ⟨_, mem_singleton_self _, own.symm⟩
    · exact absurd rfl differs
  | other code => simp [kind] at differs

/-- What etcd hands to the cluster: a snapshot or a watch response for a key. -/
inductive Input where
  | snapshot (key : String) (kvs : List KV) (orders : ChangeOrders)
  | watch (key : String) (events : List Event)

def step (c : Cluster) : Input → Cluster × List Delivery
  | .snapshot key kvs orders => c.handleChanges key kvs orders
  | .watch key events => c.handleWatchEvents key events

/-- For the given key, the input gives no etcd key that is present a different value,
and a snapshot gives none two values. -/
def Input.Keeps (key : String) (c : Cluster) : Input → Prop
  | .snapshot other kvs _ =>
    other = key → Unambiguous kvs ∧ Agree (c.pairs key) (snapshotPairs kvs)
  | .watch other events =>
    other = key → Runs.Meets (watchStep key (c.listenersOf key))
      (fun now ev => EventAgrees (now.pairs key) ev) c events

/-- The listener is registered for the key and for no other. -/
def Listens (listener : Nat) (key : String) (c : Cluster) : Prop :=
  ∀ other, listener ∈ c.listenersOf other ↔ other = key

theorem listens_congr {before after : Cluster}
    (same : after.listeners = before.listeners) (listens : Listens listener key before) :
    Listens listener key after := by
  intro other
  rw [listenersOf, same]
  exact listens other

/-- Sending notifications toward new pairs to a listener that tracks the old ones. -/
theorem sent_tracks (registered : listener ∈ listeners)
    {target pairs : Pairs} {notes : List Notification} (toward : Toward target notes)
    (agree : Agree pairs target)
    (covers : ∀ key, pairs key ≠ target key → ∃ note ∈ notes, note.key = key)
    (tracks : container.Tracks pairs) :
    ((received listener (deliveries listeners notes)).foldl notify container).Tracks target := by
  apply notify_reaches target _ _ tracks agree
  · intro key differs
    obtain ⟨note, sent, same⟩ := covers key differs
    exact mem_map.mpr
      ⟨note, (mem_received_deliveries listener listeners notes note).mpr ⟨registered, sent⟩, same⟩
  · intro note mem
    exact toward note ((mem_received_deliveries listener listeners notes note).mp mem).2

/-- A listener that is not in the list gets nothing. -/
theorem received_unregistered (unregistered : listener ∉ listeners) (notes : List Notification) :
    received listener (deliveries listeners notes) = [] := by
  apply eq_nil_iff_forall_not_mem.mpr
  intro note mem
  exact unregistered ((mem_received_deliveries listener listeners notes note).mp mem).1

theorem handleChanges_tracks (listens : Listens listener key c)
    (tracks : container.Tracks (c.pairs key)) (other : String) (kvs : List KV)
    (orders : ChangeOrders)
    (keeps : other = key → Unambiguous kvs ∧ Agree (c.pairs key) (snapshotPairs kvs)) :
    ((received listener (c.handleChanges other kvs orders).2).foldl notify container).Tracks
      ((c.handleChanges other kvs orders).1.pairs key) := by
  change ((received listener (deliveries (c.listenersOf other)
    (changeNotes (c.changes other kvs orders).2.1 (c.changes other kvs orders).2.2))).foldl notify
      container).Tracks ((c.changes other kvs orders).1.pairs key)
  rw [changes_pairs]
  by_cases own : other = key
  · obtain ⟨unambiguous, agree⟩ := keeps own
    subst own
    rw [if_pos rfl]
    exact sent_tracks ((listens other).mpr rfl)
      (changes_toward c other kvs orders unambiguous agree) agree (changes_cover c other kvs orders) tracks
  · rwa [if_neg (Ne.symm own), received_unregistered (mt (listens other).mp own)]

/-- One watch event, sent to listeners that were copied while the listener was there. -/
theorem watchStep_tracks (registered : listener ∈ listeners ↔ other = key)
    (tracks : container.Tracks (c.pairs key)) (ev : Event)
    (agrees : other = key → EventAgrees (c.pairs key) ev) :
    ((received listener (watchStep other listeners c ev).2).foldl notify container).Tracks
      ((watchStep other listeners c ev).1.pairs key) := by
  unfold watchStep
  rw [applyEvent_pairs]
  by_cases own : other = key
  · subst own
    rw [if_pos rfl]
    exact sent_tracks (registered.mpr rfl) (event_toward _ ev) (event_agree _ ev (agrees rfl))
      (event_cover _ ev) tracks
  · rwa [if_neg (Ne.symm own), received_unregistered (mt registered.mp own)]

theorem watchRun_tracks (registered : listener ∈ listeners ↔ other = key) (events : List Event) :
    ∀ {c : Cluster} {container : Container}, container.Tracks (c.pairs key) →
      (other = key → Runs.Meets (watchStep other listeners)
        (fun now ev => EventAgrees (now.pairs key) ev) c events) →
      ((received listener (Runs.run (watchStep other listeners) c events).2).foldl notify
        container).Tracks ((Runs.run (watchStep other listeners) c events).1.pairs key) := by
  induction events with
  | nil =>
    intro c container tracks _
    exact tracks
  | cons ev rest ih =>
    intro c container tracks meets
    rw [Runs.run_cons, received_append, foldl_append]
    apply ih
    · exact watchStep_tracks registered tracks ev fun own => (meets own).1
    · exact fun own => (meets own).2

theorem step_listeners (c : Cluster) (input : Input) :
    (c.step input).1.listeners = c.listeners := by
  cases input with
  | snapshot key kvs orders => exact handleChanges_listeners c key kvs orders
  | watch key events =>
    exact Runs.run_invariant_always (watchStep key (c.listenersOf key))
      (fun now => now.listeners = c.listeners)
      (fun now ev same => (applyEvent_listeners now key ev).trans same) c events rfl

theorem step_tracks (listens : Listens listener key c)
    (tracks : container.Tracks (c.pairs key)) (input : Input) (keeps : input.Keeps key c) :
    ((received listener (c.step input).2).foldl notify container).Tracks
      ((c.step input).1.pairs key) := by
  cases input with
  | snapshot other kvs orders => exact handleChanges_tracks listens tracks other kvs orders keeps
  | watch other events =>
    apply watchRun_tracks (listens other) events tracks
    intro own
    subst own
    exact keeps rfl

/-- A container that tracks the cluster goes on tracking it along a run. -/
theorem run_tracks (inputs : List Input) :
    ∀ {c : Cluster} {container : Container}, Listens listener key c →
      container.Tracks (c.pairs key) →
      Runs.Meets step (fun now input => input.Keeps key now) c inputs →
      ((received listener (Runs.run step c inputs).2).foldl notify container).Tracks
        ((Runs.run step c inputs).1.pairs key) := by
  induction inputs with
  | nil =>
    intro c container _ tracks _
    exact tracks
  | cons input rest ih =>
    intro c container listens tracks meets
    rw [Runs.run_cons, received_append, foldl_append]
    apply ih
    · exact listens_congr (step_listeners c input) listens
    · exact step_tracks listens tracks input meets.1
    · exact meets.2

/-- A non-exclusive container that listens to a key from before its first load shows
exactly the values that the cluster holds for the key, after every run whose steps
give no present etcd key a different value. -/
theorem container_converges (start : Cluster) (key : String) (listener : Nat)
    (listens : Listens listener key start) (unloaded : start.values.lookup key = none)
    (inputs : List Input)
    (kept : Runs.Meets step (fun now input => input.Keeps key now) start inputs)
    (visit : GoMap.RangeOrder String (List String)) (value : String) :
    value ∈ (((received listener (Runs.run step start inputs).2).foldl notify
        (newContainer false)).getValues visit).1 ↔
      ∃ etcdKey, (Runs.run step start inputs).1.pairs key etcdKey = some value := by
  have initially : (newContainer false).Tracks (start.pairs key) := by
    have nothing : start.pairs key = fun _ => none := by
      funext etcdKey
      simp [pairs, valuesOf, unloaded]
    exact nothing ▸ newContainer_tracks
  exact (run_tracks inputs listens initially kept).mem_getValues visit value

/-- The order in which an association list stands. -/
def listed {K V : Type} : GoMap.RangeOrder K V := ⟨id, fun _ => List.Perm.refl _⟩

/-- A cluster with one listener for one key. -/
def watched : Cluster :=
  { newCluster with listeners := (∅ : GoMap String (List Nat)).insert "svc" [0] }

theorem watched_listens : Listens 0 "svc" watched := by
  intro other
  simp only [listenersOf, watched, lookup_insert_if]
  by_cases own : other = "svc" <;> simp [own]

/-- A first load, a put of a new key and a deletion. -/
theorem container_converges_loaded :
    "b" ∈ (((received 0 (Runs.run step watched
        [.snapshot "svc" [⟨"svc/1", "a"⟩] ⟨listed, listed⟩,
          .watch "svc" [⟨.put, ⟨"svc/2", "b"⟩⟩, ⟨.delete, ⟨"svc/1", ""⟩⟩]]).2).foldl notify
        (newContainer false)).getValues listed).1 :=
  (container_converges watched "svc" 0 watched_listens rfl
    [.snapshot "svc" [⟨"svc/1", "a"⟩] ⟨listed, listed⟩,
      .watch "svc" [⟨.put, ⟨"svc/2", "b"⟩⟩, ⟨.delete, ⟨"svc/1", ""⟩⟩]]
    ⟨fun _ => ⟨by decide, fun _ _ _ held => by cases held⟩,
      ⟨fun _ => ⟨fun _ => Or.inl rfl, ⟨nofun, trivial⟩⟩, trivial⟩⟩
    listed "b").mpr ⟨"svc/2", by decide⟩

/-- A reload finds an etcd key with a new value: the container adds it, then deletes the
key and with it the new value, and keeps the old one. -/
theorem container_keeps_overwritten :
    let run := Runs.run step watched
      [.snapshot "svc" [⟨"svc/1", "a"⟩] ⟨listed, listed⟩,
        .snapshot "svc" [⟨"svc/1", "b"⟩] ⟨listed, listed⟩]
    run.1.pairs "svc" "svc/1" = some "b" ∧
      (((received 0 run.2).foldl notify (newContainer false)).getValues listed).1 = ["a"] := by
  decide

end Cluster

end FastGoZero.Discov
