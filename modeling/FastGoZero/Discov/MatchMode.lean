import FastGoZero.Discov.Watching

/-!
# How a key is matched

`monitor` writes the flag `exactMatch` of the cluster, and each load and each stream reads it. So
what is asked for a key depends on the last registration of any key. All keys are asked for as they
were registered if and only if all of them were registered in one way.
-/

namespace FastGoZero.Discov

open Lib Lib.Concurrent List

namespace Watcher

def keys : Watcher → List String
  | .registers key _ _ | .client key | .loads _ key | .gets _ key | .changes _ key _ _
  | .notifies _ key _ _ | .runs key _ | .enters _ key _ | .streams _ key _ | .listens _ key _
  | .selects _ key _ _ | .handles _ key _ _ | .applies _ key _ _ _ | .tells _ key _ _ _ _ => [key]
  | .starts keys => keys
  | .enlists _ key keys => key :: keys
  | .reloads | .closes | .waits | .returned => []

/-- The keys that a goroutine asks for are of one mode, and it writes that mode or finds it. -/
def Fits (mode : String → Bool) (common flag : Bool) : Watcher → Prop
  | .registers key _ exact => mode key = common ∧ exact = common
  | l => ∀ key ∈ l.keys, mode key = common ∧ flag = common

end Watcher

/-- All registrations are of one mode, and every load and stream was opened in it. -/
structure OneMode (mode : String → Bool) (common : Bool) (s : WatchedCluster) : Prop where
  listened : ∀ key registered, s.cluster.listeners.lookup key = some registered →
    mode key = common ∧ s.exactMatch = common
  opened : ∀ opening ∈ s.opened, opening.exact = mode opening.key

open WatchedCluster

namespace OneMode

variable {mode : String → Bool} {common : Bool} {s s' : WatchedCluster} {l after : Watcher}
  {started : List Watcher} (one : OneMode mode common s) {key : String}

include one

theorem register {exact : Bool} (fits : mode key = common ∧ exact = common) (listener : Nat) :
    OneMode mode common (s.register key listener exact) := by
  obtain ⟨listened, opened⟩ := one
  refine ⟨?_, opened⟩
  intro other registered found
  refine ⟨?_, fits.2⟩
  by_cases same : other = key
  · rw [same]
    exact fits.1
  · rw [WatchedCluster.register, AList.lookup_insert_ne same] at found
    exact (listened other registered found).1

theorem opens (fits : mode key = common ∧ s.exactMatch = common) :
    OneMode mode common (s.opens key) := by
  exact ⟨one.listened, forall_mem_cons.mpr ⟨fits.2.trans fits.1.symm, one.opened⟩⟩

/-- The keys that `reload` starts with are those that were registered. -/
theorem range_keys (visit : GoMap.RangeOrder String (List Nat)) :
    ∀ key ∈ (s.cluster.listeners.range visit).map Prod.fst,
      mode key = common ∧ s.exactMatch = common := by
  intro key mem
  obtain ⟨⟨_, registered⟩, entry, rfl⟩ := mem_map.mp mem
  exact one.listened _ _ ((GoMap.mem_range _ _ _ _).mp entry)

/-- One step keeps the mode, and leaves the flag as it is or writes the mode to it. -/
theorem proceeds (fits : l.Fits mode common s.exactMatch) (moved : s.Proceeds l s' after started) :
    OneMode mode common s' ∧ (s'.exactMatch = s.exactMatch ∨ s'.exactMatch = common) ∧
      after.Fits mode common s'.exactMatch ∧
        ∀ other ∈ started, other.Fits mode common s'.exactMatch := by
  cases moved
  case registers key listener exact free =>
    exact ⟨one.register fits listener, Or.inr fits.2, by
      simp [Watcher.Fits, Watcher.keys, WatchedCluster.register, fits.1, fits.2], by simp⟩
  case requests caller key | streams _ key _ =>
    exact ⟨one.opens (fits key mem_cons_self), Or.inl rfl, fits, by simp⟩
  case changes caller key kvs rev orders free | applies =>
    exact ⟨⟨by simpa using one.listened, one.opened⟩, Or.inl rfl, fits, by simp⟩
  case resumes caller key rev =>
    refine ⟨one, Or.inl rfl, ?_, by simp⟩
    cases caller <;> exact fits
  case renews visit idle =>
    exact ⟨⟨one.listened, one.opened⟩, Or.inl rfl, one.range_keys visit, by simp⟩
  case enters group key rev =>
    refine ⟨⟨one.listened, one.opened⟩, Or.inl rfl, by simp [Watcher.Fits, Watcher.keys], ?_⟩
    intro other mem
    rwa [mem_singleton.mp mem]
  case enlists group key keys =>
    refine ⟨⟨one.listened, one.opened⟩, Or.inl rfl, ?_, ?_⟩
    · intro other mem
      exact fits other (mem_cons_of_mem _ mem)
    · intro other mem
      rw [mem_singleton.mp mem]
      intro own asked
      rw [mem_singleton.mp asked]
      exact fits key mem_cons_self
  -- The other steps go on with the same keys or with none.
  all_goals first
    | exact ⟨⟨one.listened, one.opened⟩, Or.inl rfl, fits, by simp⟩
    | exact ⟨⟨one.listened, one.opened⟩, Or.inl rfl, by simp [Watcher.Fits, Watcher.keys], by simp⟩

end OneMode

theorem Watcher.Fits.of_flag {mode : String → Bool} {common flag flag' : Bool} {l : Watcher}
    (fits : l.Fits mode common flag) (kept : flag' = flag ∨ flag' = common) :
    l.Fits mode common flag' := by
  rcases kept with rfl | rfl
  · exact fits
  · cases l
    case registers key listener exact => exact fits
    all_goals exact fun key mem => ⟨(fits key mem).1, rfl⟩

theorem OneMode.keeps (mode : String → Bool) (common : Bool) :
    Keeps watchProgram (fun _ _ => True) fun s crowd =>
      OneMode mode common s ∧ ∀ l ∈ crowd, l.Fits mode common s.exactMatch where
  act := by
    rintro s i answer l s' after started rest - - - acted ⟨one, fit⟩
    obtain ⟨fits, others⟩ := Multiset.forall_mem_cons.mp fit
    obtain ⟨one', kept, fits', fresh⟩ := one.proceeds fits (WatchedCluster.proceeds acted)
    refine ⟨one', Multiset.forall_mem_cons.mpr ⟨fits', ?_⟩⟩
    intro other mem
    rcases Multiset.mem_add.mp mem with new | old
    · exact fresh other (Multiset.mem_coe.mp new)
    · exact (others other old).of_flag kept
  meet := by
    intro s i j a b s' sender receiver rest _ _ _ met _
    cases met

theorem OneMode.of_common (mode : String → Bool) (calls : List MonitorCall) (reloads : Nat)
    {common : Bool} (consistent : ∀ call ∈ calls, call.exact = mode call.key)
    (same : ∀ call ∈ calls, call.exact = common) (moves : List (Move Answer)) :
    OneMode mode common (watchProgram.after (startWatching calls reloads) moves).shared := by
  refine ((keeps mode common).run_always moves ⟨⟨?_, ?_⟩, ?_⟩).1
  · intro key registered found
    simp [startWatching, new, Cluster.newCluster] at found
  · simp [startWatching, new]
  · intro l mem
    rcases mem_append.mp (Multiset.mem_coe.mp mem) with monitor | reload
    · obtain ⟨call, own, rfl⟩ := mem_map.mp monitor
      exact ⟨(consistent call own).symm.trans (same call own), same call own⟩
    · rw [eq_of_mem_replicate reload]
      simp [Watcher.Fits, Watcher.keys]

/-- Two calls register one after the other before the first one loads. -/
theorem opened_after_both {routines : List Watcher} {i j : Nat} (distinct : i ≠ j)
    {call other : MonitorCall} (first : routines[i]? = some call.start)
    (second : routines[j]? = some other.start) :
    (watchProgram.after ⟨new, routines⟩
      [.act i .go, .act j .go, .act i .go, .act i .go]).shared.opened =
        [⟨call.key, other.exact⟩] := by
  obtain ⟨inside, -⟩ := List.getElem?_eq_some_iff.mp first
  have registers := @Program.after_alone _ _ _ routines i call.start watchProgram _
    new _ [.go] rfl first
  have registersOther := @Program.after_alone _ _ _ (routines.set i (.client call.key)) j
    other.start watchProgram _ (new.register call.key call.listener call.exact) _
    [.go] rfl (by rw [getElem?_set_ne distinct, second])
  have loads := @Program.after_alone _ _ _
    ((routines.set i (.client call.key)).set j (.client other.key)) i (.client call.key)
    watchProgram _ ((new.register call.key call.listener call.exact).register
      other.key other.listener other.exact) _ [.go, .go] rfl (by
      rw [getElem?_set_ne distinct.symm, getElem?_set_self inside])
  have parts : [.act i .go, .act j .go, .act i .go, .act i .go] =
      [Answer.go].map (Move.act i) ++
        ([Answer.go].map (Move.act j) ++ [Answer.go, .go].map (Move.act i)) := rfl
  rw [parts, Program.after_append, registers, Program.after_append, registersOther, loads]
  rfl

section

variable (mode : String → Bool) (calls : List MonitorCall) (reloads : Nat)

theorem startWatching_call {i : Nat} {call : MonitorCall} (found : calls[i]? = some call) :
    (startWatching calls reloads).routines[i]? = some call.start := by
  have inside : i < (calls.map MonitorCall.start).length := by
    rw [length_map]
    exact (List.getElem?_eq_some_iff.mp found).1
  rw [startWatching, getElem?_append_left inside, getElem?_map, found, Option.map_some]

/-- The counterpart: with two modes some load or stream is opened in the wrong one. -/
theorem common_of_opened (consistent : ∀ call ∈ calls, call.exact = mode call.key)
    (opened : ∀ moves, ∀ opening ∈
      (watchProgram.after (startWatching calls reloads) moves).shared.opened,
        opening.exact = mode opening.key) :
    ∀ call ∈ calls, ∀ other ∈ calls, call.exact = other.exact := by
  intro call mem other otherMember
  obtain ⟨i, first⟩ := getElem?_of_mem mem
  obtain ⟨j, second⟩ := getElem?_of_mem otherMember
  by_cases same : i = j
  · subst same
    rw [Option.some.inj (first.symm.trans second)]
  · have wrong := opened _ ⟨call.key, other.exact⟩
      (opened_after_both same (startWatching_call calls reloads first)
        (startWatching_call calls reloads second) ▸ mem_singleton_self _)
    exact (consistent call mem).trans wrong.symm

/-- Every load and every stream of a key is opened as the key was registered, in every run, if
and only if all keys were registered in one mode. -/
theorem opened_as_registered_iff (consistent : ∀ call ∈ calls, call.exact = mode call.key) :
    (∀ moves, ∀ opening ∈
      (watchProgram.after (startWatching calls reloads) moves).shared.opened,
        opening.exact = mode opening.key) ↔
      ∀ call ∈ calls, ∀ other ∈ calls, call.exact = other.exact := by
  constructor
  · exact common_of_opened mode calls reloads consistent
  · intro same moves
    cases calls with
    | nil =>
      exact (OneMode.of_common mode [] reloads consistent
        (by simp : ∀ call ∈ ([] : List MonitorCall), call.exact = true) moves).opened
    | cons call calls =>
      exact (OneMode.of_common mode (call :: calls) reloads consistent
        (fun other mem => same other mem call mem_cons_self) moves).opened

end

theorem opened_as_registered_iff_two_keys :
    (∀ call ∈ [(⟨"a", 0, true⟩ : MonitorCall), ⟨"b", 1, true⟩], call.exact = true) ∧
    ∀ moves, ∀ opening ∈
      (watchProgram.after (startWatching [⟨"a", 0, true⟩, ⟨"b", 1, true⟩] 1) moves).shared.opened,
        opening.exact = true := by
  refine ⟨by simp, ?_⟩
  exact (opened_as_registered_iff (fun _ => true) [⟨"a", 0, true⟩, ⟨"b", 1, true⟩] 1
    (by simp)).mpr (by simp)

/-- One key is registered to be matched exactly and is watched; then another key is registered for
all keys below it, and the stream of the first key breaks and is opened again. -/
theorem exact_key_watched_broadly :
    (watchProgram.after (startWatching [⟨"a", 0, true⟩, ⟨"b", 1, false⟩] 0)
      (loadsNothing.map (.act 0) ++ [.act 2 .go, .act 2 .go] ++ loadsNothing.map (.act 1) ++
        [.act 2 .streamClosed, .act 2 .go])).shared.opened =
      [⟨"a", false⟩, ⟨"b", false⟩, ⟨"a", true⟩, ⟨"a", true⟩] := by
  decide +kernel

end FastGoZero.Discov
