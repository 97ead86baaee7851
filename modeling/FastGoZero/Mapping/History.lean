import FastGoZero.Mapping.Filling

/-!
# Calls that do not depend on each other

Compatible calls store in the caches what every one of them would compute, and they leave the
maps of the package alone. So what a call returns is the same after any of them. Two calls with
one default on lists of different elements are not compatible, and do depend on each other.
-/

namespace FastGoZero.Mapping

open Lib Lib.Memo List
open Lib.Str (bytes)

section

variable {process : Process} {calls : List Call}
  {truth : (key : CacheKey) → Except Failure key.Value} (compatible : Compatible process calls)
  (known : ∀ key answer, Asked process calls key answer → answer = truth key) {call : Call}

include compatible known

theorem safe_unmarshal (mem : call ∈ calls) : Safe process truth
      (unmarshal process call.u call.fuel call.input call.type call.value) := by
  have inner := safe_selfAt compatible known call.u call.fuel
  obtain ⟨_, input, value⟩ := compatible.separate call mem
  have filled : Filled process calls call.u.key call.type := ⟨call, mem, rfl, .target⟩
  have harmless : call.input.Harmless process := Any.Own.harmless input
  unfold unmarshal
  split
  · rename_i elem type
    rw [type] at filled
    have dereffed := (filled.elem rfl).deref
    split
    case h_1 ref name target map shape pointer =>
      rw [map] at harmless
      rw [shape] at dereffed
      rw [pointer] at value
      rw [unmarshalWithFullName]
      split
      · exact (safe_unmarshalNew inner dereffed harmless.map).bind fun _ => safe_pure
      · exact safe_fillStruct inner dereffed (Value.Own.indirect value)
          (.simple (.map harmless.map) (by simp))
    case h_4 elems inside target slice shape pointer =>
      rw [slice] at harmless
      rw [shape] at dereffed
      exact safe_fillSlice inner dereffed harmless
    all_goals exact sound_fails
  · exact sound_fails

omit compatible known in
theorem Call.clean (call : Call) (separate : call.Separate) :
    Clean process (call.heap (packageMaps process)) :=
  ⟨separate.maps, fun _ => rfl⟩

/-- A compatible call leaves the maps of the package as they were. -/
theorem leaves_program (mem : call ∈ calls) :
    Program.Leaves truth (packageMaps process) (call.program process) := by
  have clean : Clean process (call.heap (packageMaps process)) :=
    call.clean (compatible.separate call mem)
  obtain ⟨agrees, kept, _⟩ := safe_unmarshal compatible known mem _ clean
  refine ⟨Program.agrees_bind agrees trivial, ?_⟩
  funext ref
  rw [Call.program, Program.plain_bind]
  exact kept.package ref

end

/-- What a call returns is the same after any calls that are compatible with it and with each
other, and the maps are as well. -/
theorem resultAfter_independent {process : Process} {earlier : List Call} {call : Call}
    (compatible : Compatible process (call :: earlier)) :
    resultAfter process earlier call = resultAfter process [] call := by
  obtain ⟨truth, known⟩ := Program.exists_truth compatible.unique
  have leave : ∀ program ∈ earlier.map (Call.program process),
      Program.Leaves truth (packageMaps process) program := by
    intro program mem
    obtain ⟨other, present, rfl⟩ := mem_map.mp mem
    exact leaves_program compatible known (mem_cons_of_mem _ present)
  have agrees := (leaves_program compatible known mem_cons_self).1
  exact congrArg Prod.fst (Program.run_runAll agrees leave)

/-- A slice whose default is `[true]`. -/
def listField (elem : GoType) : StructField where
  name := bytes "List"
  type := .slice elem
  tag := [(bytes "json", bytes "list,default=[true]")]

/-- The struct types `Flags`, with a list of booleans, and others with a list of strings. -/
def listDecls (name : TypeName) : List StructField :=
  [listField (if name = bytes "Flags" then .bool else .string)]

/-- A process with these types, in which texts other than the default do not matter. -/
def listProcess : Process where
  decls := listDecls
  depth _ := 0
  depth_lt := by
    intro name field inner declared nested
    rw [mem_singleton.mp declared] at nested
    cases nested
  env _ := []
  parseFloat _ := .error []
  parseFloat32 _ := .error []
  parseDuration _ := .error []
  formatDuration _ := []
  float64 _ := .nan
  float32 f := f
  decodeDefault text :=
    if text = bytes "[true]" then .ok (.slice .any (some [.bool true])) else .error []
  defaultMaps _ _ := ∅
  decodeSlice _ heap := (.error [], heap)
  decodeInto _ _ _ heap := (.error [], heap)
  decodeSlice_package _ _ _ := rfl
  decodeSlice_separate _ _ separate := separate
  decodeSlice_own _ _ _ decoded := by cases decoded
  decodeInto_package _ _ _ _ _ _ := rfl
  decodeInto_separate _ _ _ _ separate := separate

/-- Unmarshal an empty map into a new struct by its `json` tags. -/
def emptyCall (name : String) : Call where
  u := { key := bytes "json" }
  fuel := 4
  maps _ := ∅
  input := .map (.own 0)
  type := .ptr (.struct (bytes name))
  value := .ptr .zero

/-- The default `[true]` is the list of the text `true` for strings. Once it has been decoded for
booleans it is a list of a boolean, which no string can take. -/
theorem resultAfter_dependent :
    (resultAfter listProcess [] (emptyCall "Names")).1.isOk = true ∧
      (resultAfter listProcess [emptyCall "Flags"] (emptyCall "Names")).1.isOk = false := by
  constructor <;> decide +kernel

theorem fills_emptyCall {key name : Str} {type : GoType} (others : name ≠ bytes "Flags")
    (fills : Fills listProcess key (.ptr (.struct name)) type) :
    type = .ptr (.struct name) ∨ type = .struct name ∨ type = .slice .string ∨ type = .string := by
  induction fills with
  | target => exact .inl rfl
  | ptr _ ih | slice _ ih | array _ ih | map _ ih => simp_all
  | @field inner _ _ declared _ ih =>
    have same : inner = name := by simpa using ih
    rw [mem_singleton.mp declared, same, if_neg others]
    simp [listField]

theorem emptyCall_separate (name : String) : (emptyCall name).Separate := by
  refine ⟨?_, ?_, ?_⟩
  · intro n key value ref found
    exact absurd found (by simp [emptyCall])
  · rintro ref ⟨⟩
  · intro ref refers
    cases refers with
    | ptr refers => cases refers

variable {names : List String}

theorem visited_emptyCalls {key : Str} {field : StructField}
    (others : ∀ name ∈ names, bytes name ≠ bytes "Flags")
    (visited : Visited listProcess (names.map emptyCall) key field) :
    key = bytes "json" ∧ field = listField .string := by
  obtain ⟨struct, ⟨call, mem, same, fills⟩, declared⟩ := visited
  obtain ⟨name, present, rfl⟩ := mem_map.mp mem
  refine ⟨same.symm, ?_⟩
  have type : struct = bytes name := by
    simpa using fills_emptyCall (others name present) fills
  rw [mem_singleton.mp declared, type, if_neg (others name present)]

/-- Lists of strings alone do not depend on each other. -/
theorem compatible_emptyCalls (others : ∀ name ∈ names, bytes name ≠ bytes "Flags") :
    Compatible listProcess (names.map emptyCall) where
  tags first second _ _ := by
    rw [(visited_emptyCalls others first).2, (visited_emptyCalls others second).2]
  structs first _ := by
    obtain ⟨field, visited, _, _, shape⟩ := first
    rw [(visited_emptyCalls others visited).2] at shape
    cases shape
  defaults first second shape shape' _ _ := by
    rw [(visited_emptyCalls others first).2] at shape
    rw [(visited_emptyCalls others second).2] at shape'
    cases shape
    cases shape'
    exact Iff.rfl
  objects visited shape other _ _ := by
    rw [(visited_emptyCalls others visited).2] at shape
    cases shape
    exact absurd rfl other
  separate call mem := by
    obtain ⟨name, _, rfl⟩ := mem_map.mp mem
    exact emptyCall_separate name

theorem resultAfter_independent_names :
    Compatible listProcess [emptyCall "Labels", emptyCall "Names"] ∧
      resultAfter listProcess [emptyCall "Names"] (emptyCall "Labels") =
        resultAfter listProcess [] (emptyCall "Labels") := by
  have compatible : Compatible listProcess (["Labels", "Names"].map emptyCall) :=
    compatible_emptyCalls (by decide)
  exact ⟨compatible, resultAfter_independent compatible⟩

end FastGoZero.Mapping
