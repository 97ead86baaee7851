import FastGoZero.Lib.GoString
import Mathlib.Data.Finset.Sort

/-!
# The endpoints of a Kubernetes service

The resolver reads the object once, gives its addresses to the handler and then starts an informer,
which delivers the object again. An add merges its addresses into the set, so what the handler got
before stays there if the object has lost it in between.
-/

namespace FastGoZero.Kube

open Lib

/-- `v1.Endpoints`: the addresses of each subset. -/
structure Endpoints where
  subsets : List (List Str)
  resourceVersion : Str
deriving DecidableEq

def Endpoints.addresses (e : Endpoints) : Finset Str := e.subsets.flatten.toFinset

/-- The order in which a map is ranged over. -/
structure RangeOrder where
  visit : Finset Str → List Str
  nodup : ∀ s, (visit s).Nodup
  toFinset : ∀ s, (visit s).toFinset = s

variable (order : RangeOrder)

/-- `notify` calls the callback with the keys of the map. -/
def notifyIf (changed : Bool) (endpoints : Finset Str) : Finset Str × Option (List Str) :=
  (endpoints, if changed then some (order.visit endpoints) else none)

def diff (o n : Finset Str) : Bool := o.card ≠ n.card || decide (∃ k ∈ o, k ∉ n)

def update (endpoints : Finset Str) (e : Endpoints) : Finset Str × Option (List Str) :=
  let new := e.subsets.flatten.foldl (fun s ip => insert ip s) ∅
  notifyIf order (diff endpoints new) new

def addAddress : Finset Str × Bool → Str → Finset Str × Bool
  | (endpoints, changed), ip =>
    if ip ∉ endpoints then (insert ip endpoints, true) else (endpoints, changed)

def dropAddress : Finset Str × Bool → Str → Finset Str × Bool
  | (endpoints, changed), ip =>
    if ip ∈ endpoints then (endpoints.erase ip, true) else (endpoints, changed)

variable (endpoints : Finset Str)

/-- An object of another type is only logged. -/
def onAdd : Option Endpoints → Finset Str × Option (List Str)
  | none => (endpoints, none)
  | some e =>
    let (endpoints, changed) := e.subsets.flatten.foldl addAddress (endpoints, false)
    notifyIf order changed endpoints

def onDelete : Option Endpoints → Finset Str × Option (List Str)
  | none => (endpoints, none)
  | some e =>
    let (endpoints, changed) := e.subsets.flatten.foldl dropAddress (endpoints, false)
    notifyIf order changed endpoints

def onUpdate : Option Endpoints → Option Endpoints → Finset Str × Option (List Str)
  | some old, some new =>
    if old.resourceVersion = new.resourceVersion then (endpoints, none)
    else update order endpoints new
  | _, _ => (endpoints, none)

/-- What an informer delivers. -/
inductive Event where
  | add (e : Endpoints)
  | update (old new : Endpoints)
  | delete (last : Endpoints)
deriving DecidableEq

namespace Event

/-- The object after the event. -/
def state : Event → Option Endpoints
  | add e => some e
  | update _ new => some new
  | delete _ => none

def handle (endpoints : Finset Str) : Event → Finset Str × Option (List Str)
  | add e => onAdd order endpoints (some e)
  | update old new => onUpdate order endpoints (some old) (some new)
  | delete last => onDelete order endpoints (some last)

/-- The event follows the state that the informer knows. A version belongs to one state. -/
def Follows (known : Option Endpoints) : Event → Prop
  | add _ => known = none
  | update old new => known = some old ∧ (old.resourceVersion = new.resourceVersion → new = old)
  | delete last => known = some last

end Event

def Delivered : Option Endpoints → List Event → Prop
  | _, [] => True
  | known, event :: events => event.Follows known ∧ Delivered event.state events

/-- The addresses of the object, if there is one. -/
def view (known : Option Endpoints) : Finset Str := known.elim ∅ Endpoints.addresses

/-- The callback was called exactly if the set changed, and got the set. -/
def Told (before : Finset Str) (after : Finset Str × Option (List Str)) : Prop :=
  (after.2.isSome ↔ after.1 ≠ before) ∧
    ∀ targets ∈ after.2, targets.Nodup ∧ targets.toFinset = after.1

/-- After each event the set is that of the object. -/
def Accurate : Finset Str → List Event → Prop
  | _, [] => True
  | endpoints, event :: events =>
    ((event.handle order endpoints).1 = view event.state ∧
      Told endpoints (event.handle order endpoints)) ∧
    Accurate (event.handle order endpoints).1 events

variable {order} {endpoints : Finset Str}

theorem told_notifyIf {changed : Bool} {after : Finset Str}
    (same : changed = true ↔ after ≠ endpoints) :
    Told endpoints (notifyIf order changed after) := by
  refine ⟨?_, ?_⟩
  · cases changed <;> simpa [notifyIf] using same
  · cases changed
    · simp [notifyIf]
    · rintro targets ⟨⟩
      exact ⟨order.nodup after, order.toFinset after⟩

theorem told_same : Told endpoints (endpoints, none) := by simp [Told]

theorem diff_iff (o n : Finset Str) : diff o n = true ↔ n ≠ o := by
  simp only [diff, Bool.or_eq_true, decide_eq_true_eq]
  constructor
  · rintro (sizes | ⟨k, old, gone⟩) rfl
    · exact sizes rfl
    · exact gone old
  · intro differs
    by_contra none
    push Not at none
    exact differs (Finset.eq_of_subset_of_card_le none.2 none.1.ge).symm

variable (e : Endpoints)

theorem update_spec :
    (update order endpoints e).1 = e.addresses ∧ Told endpoints (update order endpoints e) := by
  have inserted : ∀ (ips : List Str) (s : Finset Str),
      ips.foldl (fun s ip => insert ip s) s = s ∪ ips.toFinset := by
    intro ips
    induction ips with
    | nil => simp
    | cons ip ips ih => simp [ih]
  refine ⟨?_, told_notifyIf (diff_iff _ _)⟩
  exact (inserted _ _).trans (Finset.empty_union _)

theorem onAdd_spec : (onAdd order endpoints (some e)).1 = endpoints ∪ e.addresses ∧
    Told endpoints (onAdd order endpoints (some e)) := by
  have added : ∀ (ips : List Str) (s : Finset Str) (changed : Bool),
      ips.foldl addAddress (s, changed) =
        (s ∪ ips.toFinset, changed || decide (s ∪ ips.toFinset ≠ s)) := by
    intro ips
    induction ips with
    | nil => simp
    | cons ip ips ih =>
      intro s changed
      by_cases known : ip ∈ s
      · simp [addAddress, known, ih]
      · have grown : insert ip (s ∪ ips.toFinset) ≠ s :=
          fun same => known (same ▸ Finset.mem_insert_self ..)
        simp [addAddress, known, ih, grown]
  simp only [onAdd, added, Bool.false_or]
  exact ⟨rfl, told_notifyIf decide_eq_true_iff⟩

theorem onDelete_spec : (onDelete order endpoints (some e)).1 = endpoints \ e.addresses ∧
    Told endpoints (onDelete order endpoints (some e)) := by
  have deleted : ∀ (ips : List Str) (s : Finset Str) (changed : Bool),
      ips.foldl dropAddress (s, changed) =
        (s \ ips.toFinset, changed || decide (s \ ips.toFinset ≠ s)) := by
    intro ips
    induction ips with
    | nil => simp
    | cons ip ips ih =>
      intro s changed
      by_cases known : ip ∈ s
      · have shrunk : (s \ ips.toFinset).erase ip ≠ s :=
          fun same => Finset.notMem_erase ip _ (same.symm ▸ known)
        simp [dropAddress, known, ih, shrunk, Finset.sdiff_insert, Finset.erase_sdiff_comm]
      · simp [dropAddress, known, ih, Finset.sdiff_insert_of_notMem]
  simp only [onDelete, deleted, Bool.false_or]
  exact ⟨rfl, told_notifyIf decide_eq_true_iff⟩

theorem told_handle (event : Event) : Told endpoints (event.handle order endpoints) := by
  cases event with
  | add e => exact (onAdd_spec e).2
  | delete last => exact (onDelete_spec last).2
  | update old new =>
    rw [Event.handle, onUpdate]
    split
    · exact told_same
    · exact (update_spec new).2

theorem handle_view {known : Option Endpoints} {event : Event} (follows : event.Follows known) :
    (event.handle order (view known)).1 = view event.state := by
  cases event with
  | add e =>
    cases follows
    exact (onAdd_spec e).1.trans (Finset.empty_union _)
  | delete last =>
    cases follows
    exact (onDelete_spec last).1.trans (Finset.sdiff_self _)
  | update old new =>
    obtain ⟨rfl, version⟩ := follows
    rw [Event.handle, onUpdate]
    split_ifs with same
    · exact congrArg Endpoints.addresses (version same).symm
    · exact (update_spec new).1

-- Once the handler's set is that of the object, every further event keeps it so.
theorem accurate_of_delivered {events : List Event} : ∀ {known : Option Endpoints},
    Delivered known events → Accurate order (view known) events := by
  induction events with
  | nil => exact fun _ => trivial
  | cons event events ih =>
    rintro known ⟨follows, rest⟩
    refine ⟨⟨handle_view follows, told_handle event⟩, ?_⟩
    rw [handle_view follows]
    exact ih rest

/-- The set follows the object exactly if the first add has all addresses of the initial read. -/
theorem accurate_iff (order : RangeOrder) (initial : Endpoints) {events : List Event}
    (delivered : Delivered none events) :
    Accurate order (update order ∅ initial).1 events ↔
      ∀ event ∈ events.head?, initial.addresses ⊆ view event.state := by
  rw [(update_spec initial).1]
  cases events with
  | nil => simp [Accurate]
  | cons event events =>
    obtain ⟨follows, rest⟩ := delivered
    cases event with
    | update old new => exact nomatch follows.1
    | delete last => exact nomatch follows
    | add e =>
      have merged : (onAdd order initial.addresses (some e)).1 = initial.addresses ∪ e.addresses :=
        (onAdd_spec e).1
      constructor
      · rintro ⟨⟨same, _⟩, _⟩ _ ⟨⟩
        exact Finset.union_eq_right.mp (merged.symm.trans same)
      · intro kept
        have same := merged.trans (Finset.union_eq_right.mpr (kept _ rfl))
        refine ⟨⟨same, told_handle _⟩, ?_⟩
        exact same ▸ accurate_of_delivered rest

/-- The keys in ascending order. -/
def RangeOrder.ascending : RangeOrder where
  visit s := s.sort
  nodup s := s.sort_nodup _
  toFinset s := s.sort_toFinset _

/-- A second address comes, stays at a resync, goes with the object and comes again alone. -/
theorem accurate_resynced : Accurate .ascending (update .ascending ∅ ⟨[[[1]]], [1]⟩).1
    [.add ⟨[[[1]], [[2]]], [2]⟩, .update ⟨[[[1]], [[2]]], [2]⟩ ⟨[[[1]], [[2]]], [2]⟩,
      .delete ⟨[[[1]], [[2]]], [2]⟩, .add ⟨[[[2]]], [3]⟩] :=
  (accurate_iff .ascending _ (by simp [Delivered, Event.Follows, Event.state])).mpr (by decide)

/-- The address read first is gone when the informer starts. -/
theorem stale_after_add : Delivered none [.add ⟨[[[2]]], [2]⟩] ∧
    ¬ Accurate .ascending (update .ascending ∅ ⟨[[[1]]], [1]⟩).1 [.add ⟨[[[2]]], [2]⟩] := by
  refine ⟨⟨rfl, trivial⟩, fun accurate => ?_⟩
  have same := accurate.1.1
  revert same
  decide

end FastGoZero.Kube
