import FastGoZero.Mapping.Sharing

/-!
# Filling a target

Every function of the unmarshaler agrees with what compatible calls store in the caches, and
leaves the maps of the package alone. The functions that lead back to themselves are assumed to,
and then do so however deep they go.
-/

namespace FastGoZero.Mapping

open Lib Lib.Memo Code

section

variable {process : Process} {calls : List Call} {u : Unmarshaler} {fuel : Nat} {self : Self}
  {truth : (key : CacheKey) → Except Failure key.Value} {m : Valuer} {fullName : Str}

theorem safe_optionalInContext {o : FieldOptions} {key : Str} (harmless : m.Harmless process) :
    Safe process truth (optionalInContext fuel o key m fullName) := by
  have looks (key : Str) : Safe process truth (m.value fuel key) :=
    (sound_value harmless).weaken fun _ _ => trivial
  have both {own other : Str} {answer : Option Any → Option Any → Unmarshaling Heap Bool}
      (safe : ∀ base found, Safe process truth (answer base found)) : Safe process truth
        (do let base ← m.value fuel other; let found ← m.value fuel own; answer base found) :=
    (looks other).bind fun base => (looks own).bind (safe base)
  fun_cases optionalInContext with
  | case4 | case5 => exact both fun base found => by split <;> simp
  | _ => simp

theorem withOptional_defaultValue (o : FieldOptions) (optional : Bool) :
    (withOptional o optional).defaultValue = o.defaultValue := by
  rw [withOptional]
  split <;> rfl

theorem canonicalOptions_defaultValue (u : Unmarshaler) (o : FieldOptions) :
    (u.canonicalOptions o).defaultValue = o.defaultValue := by
  rw [Unmarshaler.canonicalOptions]
  split <;> rfl

/-- The default is the one that the tag of the field declares. -/
def Declares (process : Process) (key : Str) (field : StructField)
    (opts : Option FieldOptionsWithContext) : Prop :=
  ∀ options, opts = some options → options.defaultValue = declaredDefault process key field

variable (known : ∀ key answer, Asked process calls key answer → answer = truth key)

include known

theorem sound_parseOptionsWithContext {field : StructField}
    (visited : Visited process calls u.key field) (harmless : m.Harmless process) :
    Sound truth (Clean process) (parseOptionsWithContext process u fuel field m fullName)
      fun parsed => Declares process u.key field parsed.2 := by
  refine sound_bind (sound_parseKeyAndOptions known visited) fun parsed declared => ?_
  split
  · exact sound_pure (by simp [Declares])
  rename_i options given
  have same := declared options given
  split
  · refine sound_pure ?_
    rintro _ ⟨⟩
    exact (canonicalOptions_defaultValue u options).trans same
  · have kept (optional : Bool) :
        (withOptional (u.canonicalOptions options) optional).defaultValue =
          declaredDefault process u.key field := by
      rw [withOptional_defaultValue, canonicalOptions_defaultValue, same]
    have toContext : Sound truth (Clean process)
        (toOptionsWithContext fuel (u.canonicalOptions options) (u.canonical parsed.1) m fullName)
        fun opts => opts.defaultValue = declaredDefault process u.key field :=
      sound_bind (safe_optionalInContext harmless) fun optional _ =>
        sound_pure (kept optional)
    refine sound_bind toContext fun opts same => sound_pure ?_
    rintro _ ⟨⟩
    exact same

omit known

variable (process calls truth) in
/-- The functions that lead back to themselves are safe. -/
structure SafeSelf (key : Str) (functions : Self) : Prop where
  processField {field : StructField} {x : Variable} {m : Valuer} {fullName : Str} :
    Visited process calls key field → x.value.Own → m.Harmless process →
    Safe process truth (functions.processField field x m fullName)
  fillSlice {fieldType : GoType} {x : Variable} {mapValue : Any} {fullName : Str} :
    Filled process calls key fieldType → mapValue.Harmless process →
    Safe process truth (functions.fillSlice fieldType x mapValue fullName)
  generateMap {keyType elemType : GoType} {mapValue : Any} {fullName : Str} :
    Filled process calls key elemType → mapValue.Harmless process →
    Safe process truth (functions.generateMap keyType elemType mapValue fullName)

variable {key : Str} (inner : SafeSelf process calls truth key self)

include inner

theorem safe_processFields {fields : List (StructField × Value)}
    (visited : ∀ field ∈ fields, Visited process calls key field.1 ∧ field.2.Own)
    (harmless : m.Harmless process) :
    Safe process truth (processFields self m fullName fields) := by
  induction fields with
  | nil => exact safe_pure
  | cons field fields ih =>
    obtain ⟨⟨first, own⟩, others⟩ := List.forall_mem_cons.mp visited
    refine (inner.processField first own harmless).bind fun value => ?_
    exact (ih others).bind fun values => safe_pure

variable {name : TypeName} {fieldType keyType : GoType} {x : Variable} {mapValue : Any} {text : Str}
  {opts : Option FieldOptionsWithContext}

section

variable (filled : Filled process calls key (.struct name)) {value : Value}

include filled

theorem safe_fieldsOf (own : value.Own) (harmless : m.Harmless process) :
    Safe process truth (processFields self m fullName (fieldsOf process name value)) := by
  refine safe_processFields inner ?_ harmless
  intro field mem
  obtain ⟨declared, held⟩ := fieldsOf_own own mem
  exact ⟨⟨name, filled, declared⟩, held⟩

theorem safe_fillStruct (own : value.Own) (harmless : m.Harmless process) :
    Safe process truth (fillStruct process self name value m fullName) :=
  (safe_fieldsOf inner filled own harmless).bind fun _ => safe_pure

theorem safe_unmarshalNew {ref : Ref} (harmless : Harmless process ref) :
    Safe process truth (unmarshalNew process self name ref fullName) :=
  safe_fillStruct inner filled Value.own_zero (.simple (.map harmless) (by simp))

theorem safe_processFieldStruct (own : x.value.Own) (harmless : m.Harmless process) :
    Safe process truth (processFieldStruct process self fieldType name x m fullName) := by
  rw [processFieldStruct]
  split
  · exact (safe_fillStruct inner filled Value.own_zero harmless).bind fun _ => safe_lift
  · exact safe_fillStruct inner filled own harmless

end

variable (filled : Filled process calls key fieldType) (harmless : mapValue.Harmless process)

section

include filled harmless

theorem safe_fillMap : Safe process truth (fillMap self fieldType x mapValue fullName) := by
  fun_cases fillMap with
  | case2 =>
    refine (inner.generateMap (filled.elem rfl) harmless).bind fun target => ?_
    split <;> simp
  | _ => simp

theorem safe_fillSliceValue :
    Safe process truth (fillSliceValue process self fieldType mapValue fullName) := by
  fun_cases fillSliceValue with
  | case5 => exact safe_fillMap inner filled harmless
  | _ => simp

theorem safe_fillElement :
    Safe process truth (fillElement process self fieldType mapValue fullName) := by
  have dereffed := filled.deref
  fun_cases fillElement with
  | case1 name ref shape =>
    rw [shape] at dereffed
    exact (safe_unmarshalNew inner dereffed harmless.map).bind fun _ => safe_pure
  | case2 => exact sound_fails
  | case3 _ elem shape =>
    rw [shape] at dereffed
    exact inner.fillSlice dereffed harmless
  | case4 => exact safe_fillSliceValue inner filled harmless

omit harmless in
theorem safe_fillElements {i : Nat} {elems : List Any}
    (harmless : ∀ elem ∈ elems, elem.Harmless process) :
    Safe process truth (fillElements process self fieldType fullName i elems) := by
  induction elems generalizing i with
  | nil => exact safe_pure
  | cons elem elems ih =>
    obtain ⟨first, others⟩ := List.forall_mem_cons.mp harmless
    unfold fillElements
    split
    · contradiction
    · rename_i same
      cases same
      exact (ih others).bind fun _ => safe_pure
    · rename_i same
      cases same
      refine (safe_fillElement inner filled first).bind fun value => ?_
      exact (ih others).bind fun _ => safe_pure

theorem safe_fillSlice :
    Safe process truth (fillSlice process self fieldType x mapValue fullName) := by
  fun_cases fillSlice with
  | case6 settable _ elems elem _ shape =>
    refine (safe_fillElements inner (filled.elem shape) fun _ => harmless.elem).bind ?_
    intro conv
    split <;> simp
  | _ => simp

omit inner filled harmless in
theorem sound_decodeSlice :
    Sound truth (Clean process) (decodeSlice process text fullName) fun slice =>
      ∀ elem ∈ slice, elem.Harmless process := by
  apply sound_apply
  · intro heap clean
    refine ⟨process.decodeSlice_separate text heap clean.separate, fun ref => ?_⟩
    exact (process.decodeSlice_package text heap ref).trans (clean.package ref)
  · intro heap slice clean done
    dsimp only at done
    cases answer : (process.decodeSlice text heap).1 with
    | error cause =>
      rw [answer] at done
      cases done
    | ok decoded =>
      rw [answer] at done
      cases done
      cases decoded with
      | none => simp
      | some elems =>
        intro elem mem
        exact Any.Own.harmless (process.decodeSlice_own text heap elems answer elem mem)

omit harmless in
theorem safe_fillSliceFromString :
    Safe process truth (fillSliceFromString process self fieldType x text fullName) := by
  refine sound_bind sound_decodeSlice fun slice harmless => ?_
  split
  · exact sound_panics
  · rename_i elem shape
    refine Safe.bind ?_ fun conv => safe_lift
    refine sound_foldlM trivial fun value mem conv _ => ?_
    exact (safe_fillSliceValue inner (filled.elem shape).deref (harmless value mem)).bind
      fun _ => safe_pure

omit inner filled harmless in
theorem safe_fillMapFromString (own : x.value.Own) :
    Safe process truth (fillMapFromString process x text) := by
  rw [fillMapFromString]
  split
  · exact sound_fails
  · refine sound_apply (fun heap clean => ?_) fun _ _ _ _ => trivial
    refine ⟨process.decodeInto_separate _ _ text heap clean.separate, fun ref => ?_⟩
    exact (process.decodeInto_package _ _ text heap ref (own ref)).trans (clean.package ref)

theorem safe_generateEntry :
    Safe process truth (generateEntry process self fieldType mapValue fullName) := by
  have dereffed := filled.deref
  fun_cases generateEntry with
  | case1 elem shape =>
    refine (inner.fillSlice filled harmless).bind fun target => ?_
    split <;> simp
  | case2 _ name ref shape =>
    rw [shape] at dereffed
    exact (safe_unmarshalNew inner dereffed harmless.map).bind fun _ => safe_pure
  | case4 => exact inner.generateMap (filled.elem rfl) harmless
  | _ => simp

theorem safe_generateMap :
    Safe process truth (generateMap process self keyType fieldType mapValue fullName) := by
  fun_cases generateMap with
  | case3 ref =>
    refine sound_bind sound_get fun heap clean => ?_
    refine Safe.bind ?_ fun entries => safe_pure
    refine sound_foldlM trivial fun entry mem entries _ => ?_
    have own := clean.own harmless.map ((GoMap.mem_entries_iff _ entry.1 entry.2).mp mem)
    exact (safe_generateEntry inner filled own.harmless).bind fun _ => safe_pure
  | _ => simp

theorem safe_processFieldNotFromString {parent : Option Valuer} (own : x.value.Own)
    (above : ∀ p ∈ parent, p.Harmless process) :
    Safe process truth
      (processFieldNotFromString process self fieldType x mapValue parent opts fullName) := by
  have dereffed := filled.deref
  fun_cases processFieldNotFromString with
  | case1 name ref shape =>
    rw [shape] at dereffed
    exact safe_processFieldStruct inner dereffed own (.simple (.map harmless.map) above)
  | case2 => exact inner.fillSlice filled harmless
  | case3 => exact safe_fillMap inner filled harmless
  | case4 | case5 => exact safe_fillMapFromString own
  | case6 | case7 => exact safe_fillSliceFromString inner filled
  | _ => simp

theorem safe_processNamedFieldWithValue {parent : Valuer} {name : Str} (own : x.value.Own)
    (above : parent.Harmless process) : Safe process truth
      (processNamedFieldWithValue process u self fieldType x mapValue parent name opts
        fullName) := by
  fun_cases processNamedFieldWithValue with
  | case4 =>
    refine sound_bind (sound_lift fun _ => maybeNewValue_own own) fun x own => ?_
    split
    · refine safe_processFieldNotFromString inner filled harmless
        (processFieldTextUnmarshaler_own own) ?_
      rintro _ ⟨⟩
      exact above
    · exact safe_lift
  | _ => simp

omit harmless in
theorem safe_processFieldWithEmptyMap (own : x.value.Own) :
    Safe process truth (processFieldWithEmptyMap process self fieldType x opts fullName) := by
  refine safe_processFieldNotFromString inner filled ?_ own (by simp)
  rintro _ ⟨⟩
  trivial

end

end

section

variable {process : Process} {calls : List Call} {u : Unmarshaler} {fuel : Nat} {self : Self}
  {truth : (key : CacheKey) → Except Failure key.Value} {m : Valuer} {fullName : Str}
  {field : StructField} {x : Variable} {opts : Option FieldOptionsWithContext}

theorem harmless_strings (segments : List Str) :
    (Any.slice .string (some (segments.map Any.string))).Harmless process := by
  intro ref refers
  cases refers with
  | slice mem refers =>
    obtain ⟨segment, _, rfl⟩ := List.mem_map.mp mem
    cases refers

theorem parseDefault_harmless {elem : GoType} {slice : Any} {text : Str}
    (objects : elem.deref.kind ≠ .string → ∀ value, process.decodeDefault text = .ok value →
      value.Harmless process)
    (parsed : parseDefault process elem text = .ok slice) : slice.Harmless process := by
  rw [parseDefault] at parsed
  split_ifs at parsed with other
  · rw [Except.ok.injEq] at parsed
    subst parsed
    split
    · rintro ref ⟨⟩
    · exact harmless_strings _
  · cases decoded : process.decodeDefault text with
    | error cause =>
      rw [decoded] at parsed
      contradiction
    | ok value =>
      rw [decoded] at parsed
      exact Except.ok.inj parsed ▸ objects other value decoded

variable (compatible : Compatible process calls)
  (known : ∀ key answer, Asked process calls key answer → answer = truth key)
  (inner : SafeSelf process calls truth u.key self)

include known inner

theorem safe_processRequiredField {fieldType : GoType}
    (filled : Filled process calls u.key fieldType)
    (nested : ∀ name, fieldType.deref = .struct name → Nested process calls u.key name)
    (own : x.value.Own) :
    Safe process truth (processRequiredField process u self fieldType x opts fullName) := by
  fun_cases processRequiredField with
  | case4 name shape =>
    refine Safe.bind (sound_structValueRequired known (nested name shape)) fun required => ?_
    split
    · exact sound_fails
    · exact safe_processFieldWithEmptyMap inner filled own
  | case5 => exact sound_fails
  | _ => exact safe_processFieldWithEmptyMap inner filled own

variable (visited : Visited process calls u.key field)

include compatible visited

theorem safe_fillSliceWithDefault {derefedType elem : GoType}
    (shape : field.defaultElem = some elem) (given : declaredDefault process u.key field ≠ [])
    (filled : Filled process calls u.key derefedType) (holds : derefedType.elem? = some elem) :
    Safe process truth
      (fillSliceWithDefault process self derefedType x (declaredDefault process u.key field)
        fullName) := by
  rw [fillSliceWithDefault, holds]
  refine sound_bind (sound_defaultCache known visited shape given) fun slice parsed => ?_
  refine inner.fillSlice filled (parseDefault_harmless ?_ parsed)
  intro other value decoded ref refers
  exact compatible.objects visited shape other decoded refers

variable (filled : Filled process calls u.key field.type)

include filled

theorem safe_processFieldWithDefault
    (given : declaredDefault process u.key field ≠ []) : Safe process truth
      (processFieldWithDefault process self field.type x (declaredDefault process u.key field)
        fullName) := by
  have dereffed := filled.deref
  fun_cases processFieldWithDefault with
  | case2 _ elem shape | case3 elem shape =>
    rw [shape] at dereffed
    have elems : field.defaultElem = some elem := by rw [StructField.defaultElem, shape]
    exact safe_fillSliceWithDefault compatible known inner visited elems given dereffed rfl
  | _ => exact safe_lift

variable (nested : ∀ name, field.type.deref = .struct name → Nested process calls u.key name)
  (own : x.value.Own)

include nested own

theorem safe_processNamedFieldWithoutValue
    (declared : Declares process u.key field opts) : Safe process truth
      (processNamedFieldWithoutValue process u self field.type x opts fullName) := by
  fun_cases processNamedFieldWithoutValue with
  | case1 defaultValue given =>
    have same : defaultValue = declaredDefault process u.key field := by
      cases opts with
      | none => exact absurd rfl given
      | some options => exact declared options rfl
    rw [same] at given ⊢
    exact safe_processFieldWithDefault compatible known inner visited filled given
  | case2 => exact safe_processFieldWithEmptyMap inner filled own
  | case5 => exact safe_processRequiredField known inner filled nested own
  | _ => exact safe_pure

omit compatible known inner visited filled nested own in
theorem firstOfArray_harmless {fieldType : GoType} {mapValue first : Any}
    (harmless : mapValue.Harmless process) (done : firstOfArray u fieldType mapValue = .ok first) :
    first.Harmless process := by
  revert done
  fun_cases firstOfArray with
  | case1 => nofun
  | case2 =>
    rintro ⟨⟩
    exact harmless.elem List.mem_cons_self
  | _ =>
    rintro ⟨⟩
    exact harmless

variable (harmless : m.Harmless process)

include harmless

theorem safe_processKeyedField {key : Str} (declared : Declares process u.key field opts) :
    Safe process truth (processKeyedField process u fuel self field x m key opts fullName) := by
  have without : Safe process truth
      (processNamedFieldWithoutValue process u self field.type x opts fullName) :=
    safe_processNamedFieldWithoutValue compatible known inner visited filled nested own declared
  have valuer : (createValuer m opts).Harmless process := harmless_createValuer harmless
  rw [processKeyedField]
  split
  · exact safe_lift
  · refine sound_bind (sound_getValue known valuer) fun found foundOwn => ?_
    split_ifs
    · exact without
    · exact sound_fails
    · cases found with
      | none => exact without
      | some mapValue =>
        have given : mapValue.Harmless process := (foundOwn mapValue rfl).harmless
        refine sound_bind (sound_lift fun first => firstOfArray_harmless given) ?_
        intro mapValue given
        exact safe_processNamedFieldWithValue inner filled given own valuer

theorem safe_processNamedField :
    Safe process truth (processNamedField process u fuel self field x m fullName) := by
  rw [processNamedField]
  split
  · exact safe_pure
  · refine sound_bind (sound_parseOptionsWithContext known visited harmless)
      fun parsed declared => ?_
    split
    · exact safe_pure
    · exact safe_processKeyedField compatible known inner visited filled nested own harmless
        declared

omit compatible visited filled nested own

theorem safe_processEmbedded {e : Embedding} {subField : StructField × Value}
    (visited : Visited process calls u.key subField.1) (own : subField.2.Own) :
    Safe process truth (processEmbedded process u fuel self x m fullName e subField) := by
  refine sound_bind (sound_parseOptionsWithContext known visited harmless) fun parsed _ => ?_
  refine sound_bind (sound_getValue known harmless) fun found _ => ?_
  refine Safe.bind ?_ fun value => safe_pure
  rw [fillEmbedded]
  split
  · exact safe_lift.bind fun _ => inner.processField visited own harmless
  · exact safe_pure

theorem safe_processAnonymousStructFieldOptional {name : TypeName} {key : Str}
    (filled : Filled process calls u.key (.struct name)) (own : x.value.Own) :
    Safe process truth
      (processAnonymousStructFieldOptional process u fuel self x name key m fullName) := by
  refine Safe.bind ?_ fun e => ?_
  · refine sound_foldlM trivial fun subField mem e _ => ?_
    obtain ⟨declared, held⟩ := fieldsOf_own own.indirect mem
    exact safe_processEmbedded known inner harmless ⟨name, filled, declared⟩ held
  · split_ifs <;> simp

include compatible visited own

theorem safe_processAnonymousField (filled : Filled process calls u.key field.type) :
    Safe process truth (processAnonymousField process u fuel self field x m fullName) := by
  have dereffed := filled.deref
  refine sound_bind (sound_parseOptionsWithContext known visited harmless) fun parsed _ => ?_
  split
  · exact safe_pure
  split
  · unfold processAnonymousFieldOptional
    split
    · rename_i name shape
      rw [shape] at dereffed
      exact safe_processAnonymousStructFieldOptional known inner harmless dereffed own
    · rename_i other
      exact safe_processNamedField compatible known inner visited filled
        (fun name shape => absurd shape (other name)) own harmless
  · refine sound_bind (sound_lift fun _ => maybeNewValue_own own) fun x own => ?_
    split
    · rename_i name shape
      rw [shape] at dereffed
      exact (safe_fieldsOf inner dereffed own.indirect harmless).bind fun _ => safe_pure
    · rename_i other
      refine (safe_processNamedField compatible known inner visited filled
        (fun name shape => absurd shape (other name)) ?_ harmless).bind fun _ => safe_pure
      rw [Variable.indirect]
      split
      · exact own.indirect
      · exact own

theorem safe_processField :
    Safe process truth (processField process u fuel self field x m fullName) := by
  rw [processField]
  split
  · exact safe_pure
  rename_i same
  have same : usingDifferentKeys u.key field = false := by simpa using same
  have filled := visited.filled same
  split_ifs with named
  · exact safe_processAnonymousField compatible known inner visited own harmless filled
  · have named : field.anonymous = false := by simpa using named
    exact safe_processNamedField compatible known inner visited filled
      (fun name shape => ⟨field, visited, same, named, shape⟩) own harmless

omit inner visited own harmless

theorem safe_selfAt (u : Unmarshaler) (fuel : Nat) :
    SafeSelf process calls truth u.key (selfAt process u fuel) := by
  induction fuel with
  | zero => exact ⟨fun _ _ _ => sound_fail, fun _ _ => sound_fail,
      fun _ _ => sound_fail⟩
  | succ fuel inner => exact ⟨safe_processField compatible known inner, safe_fillSlice inner,
      safe_generateMap inner⟩

end

end FastGoZero.Mapping
