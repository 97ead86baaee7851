import FastGoZero.Mapping.Caches

/-!
# Sharing the caches and the maps

While a call runs, the maps of the package stay as they are and no map of the caller comes to hold
them: a valuer finds what is the caller's, and only that is changed. What is looked up in a cache
is what the caller would have stored there.
-/

namespace FastGoZero.Mapping

open Lib Lib.Memo

/-- The maps of the package are as they were at the start, and no other map holds them. -/
structure Clean (process : Process) (heap : Heap) : Prop where
  separate : heap.Separate
  package : ∀ ref, heap (.package ref) = packageMaps process ref

/-- The value leads to no map of the package. -/
def Any.Own (value : Any) : Prop := ∀ ref, ¬value.Refers (.package ref)

/-- The maps that the value leads to are harmless. -/
def Any.Harmless (process : Process) (value : Any) : Prop :=
  ∀ ref, value.Refers ref → Mapping.Harmless process ref

section

variable {process : Process} {heap : Heap} {value : Any}

theorem Any.Own.harmless (own : value.Own) : value.Harmless process := by
  intro ref refers
  cases ref with
  | own n => trivial
  | package ref => exact absurd refers (own ref)

theorem Any.Own.ref {ref : Ref} (own : (Any.map ref).Own) : ∃ n, ref = .own n := by
  cases ref with
  | own n => exact ⟨n, rfl⟩
  | package ref => exact absurd .map (own ref)

theorem Any.Harmless.elem {type : GoType} {elems : List Any} {elem : Any}
    (harmless : (Any.slice type (some elems)).Harmless process) (mem : elem ∈ elems) :
    elem.Harmless process :=
  fun ref refers => harmless ref (.slice mem refers)

theorem Any.Harmless.map {ref : Ref} (harmless : (Any.map ref).Harmless process) :
    Mapping.Harmless process ref :=
  harmless ref .map

theorem Clean.own {ref : Ref} {key : Str} (clean : Clean process heap)
    (harmless : Harmless process ref) (found : (heap ref).lookup key = some value) : value.Own := by
  intro inner
  cases ref with
  | own n => exact clean.separate n key value inner found
  | package ref =>
    rw [clean.package] at found
    cases ref with
    | emptyMap => exact absurd found (by simp [packageMaps])
    | default text n => exact harmless key value _ found

theorem Clean.merge {n m : Nat} (clean : Clean process heap) :
    Clean process (heap.merge (.own n) (.own m)) := by
  refine ⟨?_, fun ref => ?_⟩
  · intro probe key value ref found
    rw [Heap.merge] at found
    by_cases same : probe = n
    · subst same
      rw [Function.update_self, GoMap.lookup_copyInto, Option.or_eq_some_iff] at found
      obtain found | ⟨_, found⟩ := found
      · exact clean.separate probe key value ref found
      · exact clean.separate m key value ref found
    · rw [Function.update_of_ne (by simpa using same)] at found
      exact clean.separate probe key value ref found
  · rw [Heap.merge, Function.update_of_ne (by simp)]
    exact clean.package ref

end

/-- The value leads to no map of the package. -/
def Value.Own (value : Value) : Prop := ∀ ref, ¬value.Refers (.package ref)

theorem Value.own_zero : Value.zero.Own := by
  rintro ref ⟨⟩

variable {value : Value} {name : TypeName} {fieldType : GoType}

theorem Value.Own.ptr (own : value.Own) : (Value.ptr value).Own := by
  intro ref refers
  cases refers with
  | ptr refers => exact own ref refers

theorem Value.Own.indirect (own : value.Own) : value.indirect.Own := by
  intro ref refers
  cases value with
  | ptr elem => exact own ref (.ptr refers)
  | _ => exact own ref refers

theorem Value.Own.fields (own : value.Own) {count : Nat} {field : Value}
    (mem : field ∈ value.fields count) : field.Own := by
  intro ref refers
  cases value with
  | struct fields => exact own ref (.struct mem refers)
  | _ =>
    rw [Value.fields] at mem
    · rw [List.eq_of_mem_replicate mem] at refers
      cases refers
    all_goals simp

theorem Value.own_wrap {type : GoType} (own : value.Own) : (Value.wrap type value).Own := by
  induction type with
  | ptr elem ih => exact ih.ptr
  | _ => exact own

theorem maybeNewValue_own {x after : Variable} (own : x.value.Own)
    (done : maybeNewValue fieldType x = .ok after) : after.value.Own := by
  rw [maybeNewValue] at done
  repeat' split at done
  all_goals cases done
  · exact own
  · exact own
  · exact Value.own_zero.ptr

theorem processFieldTextUnmarshaler_own {x : Variable} (own : x.value.Own) :
    (processFieldTextUnmarshaler fieldType x).value.Own := by
  unfold processFieldTextUnmarshaler
  split
  · exact Value.own_wrap Value.own_zero
  · exact own

theorem fieldsOf_own {process : Process} (own : value.Own) {field : StructField × Value}
    (mem : field ∈ fieldsOf process name value) : field.1 ∈ process.decls name ∧ field.2.Own := by
  obtain ⟨declared, held⟩ := List.of_mem_zip (a := field.1) (b := field.2) mem
  exact ⟨declared, own.fields held⟩

open Code

section

variable {process : Process} {State α β : Type}
  {truth : (key : CacheKey) → Except Failure key.Value} {kept : State → Prop} {post : α → Prop}
  {answer : Except Failure α} {fuel : Nat} {m v : Valuer}

variable (truth process) in
/-- The code agrees with the caches and leaves the maps of the package alone. -/
abbrev Safe (code : Unmarshaling Heap α) : Prop :=
  Code.Sound truth (Clean process) code fun _ => True

theorem sound_lift (holds : ∀ result, answer = .ok result → post result) :
    Sound truth kept (lift answer) post :=
  sound_apply (fun _ holds => holds) fun _ result _ => holds result

@[simp]
theorem safe_lift : Safe process truth (lift answer) :=
  sound_lift fun _ _ => trivial

@[simp]
theorem sound_fails {error : MappingError} : Sound truth kept (fails error) post :=
  sound_fail

@[simp]
theorem sound_panics : Sound truth kept panics post :=
  sound_fail

@[simp]
theorem safe_pure {result : α} : Safe process truth (pure result) :=
  sound_pure trivial

theorem Safe.bind {code : Unmarshaling Heap α} {rest : α → Unmarshaling Heap β}
    (first : Safe process truth code) (second : ∀ result, Safe process truth (rest result)) :
    Safe process truth (code >>= rest) :=
  sound_bind first fun result _ => second result

/-- The maps of the valuer are harmless. -/
inductive Valuer.Harmless (process : Process) : Valuer → Prop
  | map {ref : Ref} (harmless : Mapping.Harmless process ref) : Harmless process (.map ref)
  | simple {current : Valuer} {parent : Option Valuer} (here : Harmless process current)
      (above : ∀ p ∈ parent, Harmless process p) : Harmless process (.simple current parent)
  | recursive {current : Valuer} {parent : Option Valuer} (here : Harmless process current)
      (above : ∀ p ∈ parent, Harmless process p) : Harmless process (.recursive current parent)

theorem Valuer.Harmless.parentOf {p : Valuer} (harmless : v.Harmless process)
    (parent : v.parentOf = some p) : p.Harmless process := by
  induction harmless generalizing p with
  | map _ => cases parent
  | @simple _ q _ above _ ih | @recursive _ q _ above _ ih =>
    cases q with
    | none => cases parent
    | some q =>
      cases parent
      exact .recursive (above q rfl) fun r found => ih q rfl found

/-- What a valuer finds is the caller's. -/
def FoundOwn (found : Option Any) : Prop := ∀ value, found = some value → value.Own

theorem sound_value {key : Str} (harmless : v.Harmless process) :
    Sound truth (Clean process) (v.value fuel key) FoundOwn := by
  induction fuel generalizing v with
  | zero => exact sound_fail
  | succ fuel ih =>
    cases harmless with
    | @map ref harmless =>
      refine sound_bind sound_get fun heap clean => sound_pure ?_
      intro value found
      exact clean.own harmless found
    | simple here _ => exact ih here
    | @recursive current parent here above =>
      refine sound_bind (ih here) fun val own => ?_
      have harmless : (Valuer.recursive current parent).Harmless process := .recursive here above
      split
      · exact sound_pure (by simp [FoundOwn])
      · rename_i p parent
        exact ih (harmless.parentOf parent)
      · rename_i vm p parent
        have above := harmless.parentOf parent
        refine sound_bind (ih above) fun pv inherited => ?_
        split
        · obtain ⟨n, rfl⟩ := (own _ rfl).ref
          obtain ⟨m, rfl⟩ := (inherited _ rfl).ref
          refine sound_bind (sound_modify fun heap clean => clean.merge) fun _ _ => ?_
          exact sound_pure own
        · exact sound_pure own
      · exact sound_pure own

theorem sound_getValueWithChainedKeys {keys : List Str} (harmless : m.Harmless process) :
    Code.Sound truth (Clean process) (getValueWithChainedKeys fuel m keys) FoundOwn := by
  induction keys generalizing m with
  | nil => exact sound_pure (by simp [FoundOwn])
  | cons key keys ih =>
    cases keys with
    | nil => exact sound_value harmless
    | cons second keys =>
      refine sound_bind (sound_value harmless) fun v own => ?_
      split
      · apply ih
        refine .recursive (.map (own _ rfl).harmless.map) fun p same => ?_
        rw [Option.mem_some_iff] at same
        exact same ▸ harmless
      · exact sound_pure (by simp [FoundOwn])

theorem harmless_createValuer {opts : Option FieldOptionsWithContext}
    (harmless : m.Harmless process) : (createValuer m opts).Harmless process := by
  rw [createValuer]
  split
  · exact .recursive harmless fun p same => harmless.parentOf same
  · exact .simple harmless fun p same => harmless.parentOf same

end

section

variable {process : Process} {calls : List Call} {State : Type} {key : Str}
  {truth : (key : CacheKey) → Except Failure key.Value} {kept : State → Prop}
  (known : ∀ key answer, Asked process calls key answer → answer = truth key)

include known

variable {text : Str} {field : StructField} {isOpaque : Bool} {fuel : Nat}

theorem sound_cacheKeys : Sound truth kept (cacheKeys text (splitKey text)) fun _ => True :=
  sound_memo trivial (known _ _ (.keys text)) fun _ _ => trivial

theorem sound_optionsCache (visited : Visited process calls key field) :
    Sound truth kept
      (optionsCache (tagText key field) (parsedTag process field.name (tagText key field)))
      fun parsed => parsedTag process field.name (tagText key field) = .ok parsed := by
  generalize text : tagText key field = value
  generalize answer : parsedTag process field.name value = parsed
  have asked : Asked process calls (.options value) parsed := answer ▸ .options visited text
  exact sound_memo trivial (known _ _ asked) fun _ parsed => parsed

theorem sound_defaultCache {elem : GoType}
    (visited : Visited process calls key field) (shape : field.defaultElem = some elem)
    (given : declaredDefault process key field ≠ []) :
    Sound truth kept (defaultCache (declaredDefault process key field)
        (parseDefault process elem (declaredDefault process key field)))
      fun slice => parseDefault process elem (declaredDefault process key field) = .ok slice := by
  generalize text : declaredDefault process key field = value at given
  generalize answer : parseDefault process elem value = parsed
  have asked : Asked process calls (.defaultValue value) parsed :=
    answer ▸ .defaultValue visited shape text given
  exact sound_memo trivial (known _ _ asked) fun _ parsed => parsed

theorem sound_readKeys : Safe process truth (readKeys text isOpaque) := by
  rw [readKeys]
  split
  · exact sound_pure trivial
  · exact sound_cacheKeys known

theorem sound_getValue {m : Valuer} (harmless : m.Harmless process) :
    Sound truth (Clean process) (getValue fuel m text isOpaque) FoundOwn :=
  sound_bind (sound_readKeys known) fun _ _ => sound_getValueWithChainedKeys harmless

/-- The options that a tag gives are those that it declares. -/
theorem sound_parseKeyAndOptions (visited : Visited process calls key field) :
    Sound truth kept (parseKeyAndOptions process key field) fun parsed =>
      ∀ options, parsed.2 = some options →
        options.defaultValue = declaredDefault process key field := by
  rw [parseKeyAndOptions]
  split
  · exact sound_pure (by simp)
  · refine sound_bind (sound_optionsCache known visited) fun cache parsed => ?_
    split
    · refine sound_pure ?_
      intro options same
      rw [declaredDefault, parsed]
      dsimp only at same ⊢
      rw [same]
      rfl
    · exact sound_fails

theorem sound_implicitValueRequiredFields {nested : TypeName → Unmarshaling Unit Bool}
    {fields : List StructField} (visited : ∀ field ∈ fields, Visited process calls key field)
    (sound : ∀ name, Filled process calls key (.struct name) →
      Sound truth (fun _ => True) (nested name) fun _ => True) :
    Sound truth (fun _ => True) (implicitValueRequiredFields process key nested fields)
      fun _ => True := by
  induction fields with
  | nil => exact sound_pure trivial
  | cons field fields ih =>
    obtain ⟨first, others⟩ := List.forall_mem_cons.mp visited
    have goesOn := ih others
    rw [implicitValueRequiredFields]
    split
    · exact sound_pure trivial
    rename_i same
    refine sound_bind (sound_parseKeyAndOptions known first) fun parsed _ => ?_
    split
    · rename_i name _ shape
      have filled : Filled process calls key (.struct name) :=
        shape ▸ first.filled (Bool.not_eq_true _ ▸ same)
      refine sound_bind (sound name filled) fun required _ => ?_
      split
      · exact sound_pure trivial
      · exact goesOn
    · exact sound_pure trivial
    · split
      · exact sound_pure trivial
      · split
        · exact sound_pure trivial
        · exact goesOn

theorem sound_implicitValueRequiredStruct (filled : Filled process calls key (.struct name)) :
    Sound truth (fun _ => True) (implicitValueRequiredStruct process key fuel name)
      fun _ => True := by
  induction fuel generalizing name with
  | zero => exact sound_fail
  | succ fuel ih =>
    exact sound_implicitValueRequiredFields known (fun field mem => ⟨name, filled, mem⟩)
      fun name filled => ih filled

theorem sound_structValueRequired (nested : Nested process calls key name) :
    Sound truth kept (structValueRequired process key name) fun _ => True := by
  have filled : Filled process calls key (.struct name) := by
    obtain ⟨field, visited, same, _, shape⟩ := nested
    exact shape ▸ (visited.filled same).deref
  have agrees : (requiredProgram process key name).Agrees truth :=
    Program.agrees_bind (sound_implicitValueRequiredStruct known filled () trivial).1 trivial
  refine sound_bind
    (sound_memo agrees (known _ _ (.required nested)) fun _ _ => trivial) fun val _ => ?_
  split
  · exact sound_pure trivial
  · exact sound_fails

end

end FastGoZero.Mapping
