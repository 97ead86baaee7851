import FastGoZero.Discov.Container
import Mathlib.Data.List.Induction

/-!
# The two maps of a container

`values` should list under each value exactly the keys that `mapping` gives this value, and in
exclusive mode only the key that was added last. Removals keep that, and so does the addition of a
key that has no value yet, or has this value already. The addition of a key that has another value
does not: the key stays listed under the old value.
-/

namespace FastGoZero.Discov.Container

open Lib List GoMap

/-- The key that was last added with each value. -/
def noteAdded (latest : String → Option String) : Notification → String → Option String
  | .onAdd kv => Function.update latest kv.val (some kv.key)
  | .onDelete _ => latest

def lastAdded (notes : List Notification) : String → Option String :=
  notes.foldl noteAdded fun _ => none

/-- The values map is the inverse of the mapping, without empty lists; in exclusive mode the only
key of a value is the last one that was added with it. -/
structure Inverse (latest : String → Option String) (c : Container) : Prop where
  listed : ∀ key value, key ∈ c.keysOf value ↔ c.mapping.lookup key = some value
  filled : ∀ value keys, c.values.lookup value = some keys → keys ≠ []
  single : c.exclusive = true → ∀ value key, key ∈ c.keysOf value →
    c.keysOf value = [key] ∧ latest value = some key

/-- The key has no value, or this one. -/
def Fresh (c : Container) (kv : KV) : Prop :=
  c.mapping.lookup kv.key = none ∨ c.mapping.lookup kv.key = some kv.val

variable {c : Container} {latest : String → Option String}

theorem newContainer_inverse (exclusive : Bool) (latest : String → Option String) :
    (newContainer exclusive).Inverse latest where
  listed key value := by simp [newContainer, keysOf]
  filled _ _ present := by cases present
  single _ value key mem := by simp [newContainer, keysOf] at mem

theorem keysOf_doRemoveKey {key server : String} (found : c.mapping.lookup key = some server)
    (value : String) : (c.doRemoveKey key).keysOf value =
      if value = server then (c.keysOf server).filter (· ≠ key) else c.keysOf value := by
  unfold doRemoveKey
  rw [found]
  dsimp only [keysOf]
  split
  · rw [lookup_insert_if]
    split <;> rfl
  · rename_i empty
    rw [lookup_erase_if]
    split
    · exact (eq_nil_of_length_eq_zero (Nat.eq_zero_of_not_pos empty)).symm
    · rfl

theorem lookup_doRemoveKey (c : Container) (key probe : String) :
    (c.doRemoveKey key).mapping.lookup probe =
      if probe = key then none else c.mapping.lookup probe := by
  unfold doRemoveKey
  cases found : c.mapping.lookup key with
  | none =>
    split_ifs with same
    · rw [same, found]
    · rfl
  | some server => simp only [lookup_erase_if]

theorem filled_doRemoveKey (filled : ∀ value keys, c.values.lookup value = some keys → keys ≠ [])
    (key : String) :
    ∀ value keys, (c.doRemoveKey key).values.lookup value = some keys → keys ≠ [] := by
  intro value keys present
  unfold doRemoveKey at present
  split at present
  · exact filled value keys present
  · dsimp only at present
    split_ifs at present with nonempty
    · rw [lookup_insert_if] at present
      split at present
      · cases present
        exact ne_nil_of_length_pos nonempty
      · exact filled value keys present
    · rw [lookup_erase_if] at present
      split at present
      · cases present
      · exact filled value keys present

theorem exclusive_doRemoveKey (c : Container) (key : String) :
    (c.doRemoveKey key).exclusive = c.exclusive := by
  unfold doRemoveKey
  split <;> rfl

section

variable (inverse : c.Inverse latest)

include inverse

/-- Under every value the key is gone, and the others stay. -/
theorem Inverse.keysOf_doRemoveKey (key value : String) :
    (c.doRemoveKey key).keysOf value = (c.keysOf value).filter (· ≠ key) := by
  have unlisted : c.mapping.lookup key ≠ some value →
      (c.keysOf value).filter (· ≠ key) = c.keysOf value := by
    intro other
    rw [filter_eq_self]
    intro probe mem
    rw [decide_eq_true_eq]
    rintro rfl
    exact other ((inverse.listed probe value).mp mem)
  cases found : c.mapping.lookup key with
  | none =>
    have same : c.doRemoveKey key = c := by
      unfold doRemoveKey
      rw [found]
    rw [same, unlisted (by simp [found])]
  | some server =>
    rw [Container.keysOf_doRemoveKey found]
    split
    · rename_i same
      rw [same]
    · rename_i other
      rw [unlisted (by simp [found, Ne.symm other])]

theorem Inverse.doRemoveKey (key : String) : (c.doRemoveKey key).Inverse latest where
  listed probe value := by
    rw [inverse.keysOf_doRemoveKey, lookup_doRemoveKey, mem_filter, inverse.listed]
    by_cases own : probe = key <;> simp [own]
  filled := filled_doRemoveKey inverse.filled key
  single exclusive value probe mem := by
    rw [exclusive_doRemoveKey] at exclusive
    rw [inverse.keysOf_doRemoveKey] at mem ⊢
    obtain ⟨before, kept⟩ := mem_filter.mp mem
    obtain ⟨alone, last⟩ := inverse.single exclusive value probe before
    refine ⟨?_, last⟩
    rwa [alone, filter_eq_self, forall_mem_singleton]

theorem Inverse.touch : ({ c with dirty := true } : Container).Inverse latest :=
  ⟨inverse.listed, inverse.filled, inverse.single⟩

theorem onDelete_inverse (kv : KV) :
    (c.onDelete kv).Inverse latest := inverse.touch.doRemoveKey kv.key

end

/-- The last two assignments of `addKv`. -/
def enter (c : Container) (kv : KV) : Container :=
  { c with
    values := c.values.insert kv.val (c.keysOf kv.val ++ [kv.key])
    mapping := c.mapping.insert kv.key kv.val }

theorem keysOf_enter (c : Container) (kv : KV) (value : String) :
    (c.enter kv).keysOf value =
      if value = kv.val then c.keysOf kv.val ++ [kv.key] else c.keysOf value := by
  simp only [enter, keysOf, lookup_insert_if]
  split <;> rfl

theorem lookup_enter (c : Container) (kv : KV) (key : String) :
    (c.enter kv).mapping.lookup key =
      if key = kv.key then some kv.val else c.mapping.lookup key := by
  simp only [enter, lookup_insert_if]

theorem onAdd_shared (shared : c.exclusive = false) (kv : KV) :
    c.onAdd kv = ({ c with dirty := true } : Container).enter kv := by
  unfold onAdd addKv
  simp only [shared, Bool.false_eq_true, false_and, ↓reduceIte]
  rfl

/-- In exclusive mode the value has at most one key, which is removed before. -/
theorem onAdd_eq (inverse : c.Inverse latest) (kv : KV) :
    ∃ base : Container, c.onAdd kv = base.enter kv ∧ base.Inverse latest ∧ base.exclusive = c.exclusive ∧
      (c.exclusive = true → base.keysOf kv.val = []) ∧ (base.Fresh kv ↔ c.Fresh kv) := by
  have touched := inverse.touch
  cases mode : c.exclusive with
  | false =>
    exact ⟨{ c with dirty := true }, onAdd_shared mode kv, touched, mode, by simp, Iff.rfl⟩
  | true =>
    cases keys : c.keysOf kv.val with
    | nil =>
      refine ⟨{ c with dirty := true }, ?_, touched, mode, fun _ => keys, Iff.rfl⟩
      have none : ({ c with dirty := true } : Container).keysOf kv.val = [] := keys
      simp [onAdd, addKv, none, enter]
    | cons former rest =>
      obtain ⟨alone, -⟩ := inverse.single mode kv.val former (by simp [keys])
      have evicted : c.onAdd kv =
          (({ c with dirty := true } : Container).doRemoveKey former).enter kv := by
        have one : ({ c with dirty := true } : Container).keysOf kv.val = [former] := alone
        rw [onAdd, addKv]
        simp only [one, length_singleton, Nat.zero_lt_one, decide_true, and_true]
        rw [if_pos mode]
        rfl
      refine ⟨_, evicted, touched.doRemoveKey former, ?_, fun _ => ?_, ?_⟩
      · rwa [exclusive_doRemoveKey]
      · rw [touched.keysOf_doRemoveKey]
        have one : ({ c with dirty := true } : Container).keysOf kv.val = [former] := alone
        simp [one]
      · have held : c.mapping.lookup former = some kv.val :=
          (inverse.listed former kv.val).mp (by simp [alone])
        rw [Fresh, Fresh, lookup_doRemoveKey]
        by_cases own : kv.key = former
        · rw [own]
          simp [held]
        · simp [own]

/-- An addition keeps the maps inverse exactly if the key has no other value. -/
theorem onAdd_inverse_iff (inverse : c.Inverse latest) (kv : KV) :
    (c.onAdd kv).Inverse (Function.update latest kv.val (some kv.key)) ↔ c.Fresh kv := by
  obtain ⟨base, result, before, sameMode, cleared, sameFresh⟩ := onAdd_eq inverse kv
  rw [result, ← sameFresh]
  rw [← sameMode] at cleared
  constructor
  · intro after
    by_contra stale
    rw [Fresh, not_or] at stale
    obtain ⟨old, held⟩ := Option.ne_none_iff_exists'.mp stale.1
    have differs : old ≠ kv.val := fun same => stale.2 (same ▸ held)
    -- The key is still listed under the value that it had.
    have listed := (after.listed kv.key old).mp
    rw [keysOf_enter, if_neg differs, lookup_enter, if_pos rfl] at listed
    exact differs (Option.some.inj (listed ((before.listed _ _).mpr held))).symm
  · intro fresh
    refine ⟨?_, ?_, ?_⟩
    · intro key value
      rw [keysOf_enter, lookup_enter]
      by_cases sameKey : key = kv.key
      · by_cases sameValue : value = kv.val
        · simp [sameKey, sameValue]
        · have unlisted : kv.key ∉ base.keysOf value := by
            rw [before.listed]
            rcases fresh with absent | held
            · simp [absent]
            · simp [held, Ne.symm sameValue]
          simp [sameKey, sameValue, unlisted, Ne.symm sameValue]
      · by_cases sameValue : value = kv.val <;> simp [sameKey, sameValue, before.listed]
    · intro value keys present
      simp only [enter, lookup_insert_if] at present
      split at present
      · cases present
        exact append_ne_nil_of_right_ne_nil _ (cons_ne_nil _ _)
      · exact before.filled value keys present
    · intro exclusive value key mem
      rw [keysOf_enter] at mem ⊢
      by_cases sameValue : value = kv.val
      · rw [if_pos sameValue, cleared exclusive, nil_append] at mem ⊢
        rw [mem_singleton.mp mem, sameValue, Function.update_self]
        exact ⟨rfl, rfl⟩
      · rw [if_neg sameValue] at mem ⊢
        rw [Function.update_of_ne sameValue]
        exact before.single exclusive value key mem

/-- The container is shared by all keys of a value and holds exactly the pairs. -/
structure Tracks (c : Container) (pairs : Pairs) : Prop where
  shared : c.exclusive = false
  mapping : ∀ key, c.mapping.lookup key = pairs key
  listed : ∀ key value, key ∈ c.keysOf value ↔ pairs key = some value
  filled : ∀ value keys, c.values.lookup value = some keys → keys ≠ []
  current : c.dirty = false → ∀ value, value ∈ c.snapshot ↔ value ∈ c.values

theorem newContainer_tracks : (newContainer false).Tracks fun _ => none where
  shared := rfl
  mapping _ := rfl
  listed key value := by simp [newContainer, keysOf]
  filled _ _ present := by cases present
  current clean := by cases clean

variable {pairs : Pairs}

/-- The values of the container are the values of the pairs. -/
theorem Tracks.mem_values (tracks : c.Tracks pairs) (value : String) :
    value ∈ c.values ↔ ∃ key, pairs key = some value := by
  rw [mem_iff_lookup]
  constructor
  · rintro ⟨keys, found⟩
    obtain ⟨key, mem⟩ := exists_mem_of_ne_nil _ (tracks.filled value keys found)
    refine ⟨key, (tracks.listed key value).mp ?_⟩
    simpa [keysOf, found] using mem
  · rintro ⟨key, paired⟩
    have mem := (tracks.listed key value).mpr paired
    cases found : c.values.lookup value with
    | none => simp [keysOf, found] at mem
    | some keys => exact ⟨keys, rfl⟩

/-- Readers see the values of the pairs, from the snapshot or not. -/
theorem Tracks.mem_getValues (tracks : c.Tracks pairs)
    (visit : GoMap.RangeOrder String (List String)) (value : String) :
    value ∈ (c.getValues visit).1 ↔ ∃ key, pairs key = some value := by
  rw [← tracks.mem_values]
  unfold getValues
  cases state : c.dirty with
  | false => exact tracks.current state value
  | true =>
    simp only [↓reduceIte, mem_map, Prod.exists, exists_and_right, exists_eq_right,
      GoMap.mem_range, GoMap.mem_iff_lookup]

theorem Tracks.inverse (tracks : c.Tracks pairs) : c.Inverse fun _ => none where
  listed key value := by
    rw [tracks.mapping]
    exact tracks.listed key value
  filled := tracks.filled
  single exclusive := by
    rw [tracks.shared] at exclusive
    cases exclusive

theorem Inverse.tracks (inverse : c.Inverse latest) (shared : c.exclusive = false)
    (touched : c.dirty = true) (mapping : ∀ key, c.mapping.lookup key = pairs key) :
    c.Tracks pairs where
  shared := shared
  mapping := mapping
  listed key value := by
    rw [← mapping]
    exact inverse.listed key value
  filled := inverse.filled
  current clean := by
    rw [touched] at clean
    cases clean

/-- An addition of a key that is new, or has that value already, is tracked. -/
theorem onAdd_tracks (tracks : c.Tracks pairs) (kv : KV)
    (fresh : pairs kv.key = none ∨ pairs kv.key = some kv.val) :
    (c.onAdd kv).Tracks (Function.update pairs kv.key (some kv.val)) := by
  rw [← tracks.mapping] at fresh
  have added := (onAdd_inverse_iff tracks.inverse kv).mpr fresh
  rw [onAdd_shared tracks.shared] at added ⊢
  refine added.tracks tracks.shared rfl fun key => ?_
  simp only [lookup_enter, Function.update_apply, tracks.mapping]

theorem onDelete_tracks (tracks : c.Tracks pairs) (kv : KV) :
    (c.onDelete kv).Tracks (Function.update pairs kv.key none) := by
  refine (onDelete_inverse tracks.inverse kv).tracks
    ((exclusive_doRemoveKey _ _).trans tracks.shared) ?_ fun key => ?_
  · rw [onDelete, removeKey, doRemoveKey]
    split <;> rfl
  · rw [onDelete, removeKey, lookup_doRemoveKey]
    simp only [Function.update_apply, tracks.mapping]

/-- Two sets of pairs that give no key two different values. -/
def Agree (pairs target : Pairs) : Prop :=
  ∀ key old new, pairs key = some old → target key = some new → old = new

/-- Notifications toward a target are tracked where the container's pairs do not
contradict it; they may be repeated and come in any order. -/
theorem notify_tracks (target : Pairs) (notes : List Notification) (toward : Toward target notes)
    (tracks : c.Tracks pairs) (agree : Agree pairs target) :
    (notes.foldl notify c).Tracks (amount pairs notes) := by
  induction notes generalizing c pairs with
  | nil => exact tracks
  | cons note rest ih =>
    have first := toward note mem_cons_self
    have others : Toward target rest := fun other mem =>
      toward other (mem_cons_of_mem _ mem)
    have next : (c.notify note).Tracks (note.apply pairs) := by
      cases note with
      | onAdd kv =>
        apply onAdd_tracks tracks
        cases held : pairs kv.key with
        | none => exact Or.inl rfl
        | some old => exact Or.inr (congrArg some (agree kv.key old kv.val held first))
      | onDelete kv => exact onDelete_tracks tracks kv
    have stillAgree : Agree (note.apply pairs) target := by
      intro key old new held aimed
      by_cases own : key = note.key
      · subst own
        simp only [Notification.apply, Function.update_self] at held
        rw [aimed, held, Option.some.injEq] at first
        exact first.symm
      · simp only [Notification.apply, Function.update_of_ne own] at held
        exact agree key old new held aimed
    exact ih others next stillAgree

/-- When the notifications mention each key that is not yet at the target, the
container ends up with the target. -/
theorem notify_reaches (target : Pairs) (notes : List Notification) (toward : Toward target notes)
    (tracks : c.Tracks pairs) (agree : Agree pairs target)
    (covers : ∀ key, pairs key ≠ target key → key ∈ notes.map Notification.key) :
    (notes.foldl notify c).Tracks target := by
  have reached : amount pairs notes = target := by
    funext key
    rw [amount_toward target notes toward]
    split_ifs with unmentioned
    · rfl
    · by_contra different
      exact unmentioned (covers key different)
  exact reached ▸ notify_tracks target notes toward tracks agree

theorem notify_inverse_iff (inverse : c.Inverse latest) (note : Notification) :
    (c.notify note).Inverse (noteAdded latest note) ↔
      ∀ kv, note = .onAdd kv → c.Fresh kv := by
  cases note with
  | onAdd kv => simpa [notify, noteAdded] using onAdd_inverse_iff inverse kv
  | onDelete kv => simpa [notify, noteAdded] using onDelete_inverse inverse kv

/-- The maps are inverse after every event of a sequence exactly if no event adds a key that has
another value then. -/
theorem values_inverse_iff (exclusive : Bool) (notes : List Notification) :
    (∀ done, done <+: notes →
        (done.foldl notify (newContainer exclusive)).Inverse (lastAdded done)) ↔
      ∀ done kv, done ++ [.onAdd kv] <+: notes →
        (done.foldl notify (newContainer exclusive)).Fresh kv := by
  induction notes using List.reverseRecOn with
  | nil =>
    constructor
    · intro _ done kv early
      simp at early
    · intro _ done early
      rw [prefix_nil.mp early]
      exact newContainer_inverse exclusive _
  | append_singleton notes note ih =>
    have last : ∀ done, (done.foldl notify (newContainer exclusive)).Inverse (lastAdded done) →
        (((done ++ [note]).foldl notify (newContainer exclusive)).Inverse
          (lastAdded (done ++ [note])) ↔
            ∀ kv, note = .onAdd kv → (done.foldl notify (newContainer exclusive)).Fresh kv) := by
      intro done inverse
      rw [lastAdded, foldl_append, foldl_append]
      exact notify_inverse_iff inverse note
    constructor
    · intro throughout done kv early
      rcases prefix_concat_iff.mp early with whole | shorter
      · obtain ⟨rfl, added⟩ := append_inj' whole rfl
        refine (last done (throughout done (prefix_append _ _))).mp
          (throughout _ prefix_rfl) kv (singleton_inj.mp added).symm
      · exact ih.mp (fun earlier before =>
          throughout earlier (before.trans (prefix_append _ _))) done kv shorter
    · intro fresh done early
      have before := ih.mpr fun earlier kv shorter =>
        fresh earlier kv (shorter.trans (prefix_append _ _))
      rcases prefix_concat_iff.mp early with rfl | shorter
      · refine (last notes (before notes prefix_rfl)).mpr ?_
        rintro kv rfl
        exact fresh notes kv prefix_rfl
      · exact before done shorter

/-- A key gets another value without having been deleted: it stays listed under the old one, in
both modes, even after it is deleted; and in exclusive mode the old value then has two keys. -/
theorem key_listed_under_old_value :
    (∀ exclusive, ¬ (([.onAdd ⟨"k", "a"⟩, .onAdd ⟨"k", "b"⟩] : List Notification).foldl notify
      (newContainer exclusive)).Inverse
        (lastAdded [.onAdd ⟨"k", "a"⟩, .onAdd ⟨"k", "b"⟩])) ∧
    (∀ exclusive, (([.onAdd ⟨"k", "a"⟩, .onAdd ⟨"k", "b"⟩, .onDelete ⟨"k", "b"⟩] :
      List Notification).foldl notify (newContainer exclusive)).keysOf "a" = ["k"]) ∧
    (([.onAdd ⟨"k", "a"⟩, .onAdd ⟨"k", "b"⟩, .onAdd ⟨"m", "a"⟩] :
      List Notification).foldl notify (newContainer true)).keysOf "a" = ["k", "m"] := by
  refine ⟨?_, by decide +kernel, by decide +kernel⟩
  intro exclusive inverse
  have listed := (inverse.listed "k" "a").mp
  revert listed
  cases exclusive <;> decide +kernel

end FastGoZero.Discov.Container
