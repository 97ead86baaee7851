import FastGoZero.Conf.FieldInfo
import FastGoZero.Lib.CaseMapping
import FastGoZero.Lib.Fallible
import Mathlib.Order.WellFounded

/-!
# Types whose description has an end

`buildFieldsInfo` keeps no record of the types that it is describing. So it comes to an end
exactly if there is no endless chain of types, each looked at in describing the one before. A
field is looked at if the fields before it are described without an error.
-/

namespace FastGoZero.Conf

open Lib Option

variable {Id : Type}

/-- What the code looks at: a type that it describes, a type of an embedded field, or the fields
that are left of a struct. -/
inductive Call (Id : Type) where
  | describe (tp : Id) (fullName : Str)
  | embedded (tp : Id) (fullName : Str)
  | fields (info : FieldInfo) (left : List (StructField Id)) (fullName : Str)

def StructField.call (lower : Str → Str) (field : StructField Id) (fullName : Str) : Call Id :=
  if field.anonymous then .embedded field.type (getFullName fullName (lower (getTagName field)))
  else .describe field.type (getFullName fullName (lower (getTagName field)))

/-- The type of the elements, which a description goes on with. -/
def TypeInfo.elem? : TypeInfo Id → Option Id
  | array elem | slice elem | map elem => some elem
  | _ => none

variable (types : Id → TypeInfo Id) (lower : Str → Str)

/-- In looking at the one, the code looks at the other. -/
inductive Enters : Call Id → Call Id → Prop
  | ptr {tp elem : Id} {fullName : Str} (kind : types tp = .ptr elem) :
      Enters (.describe tp fullName) (.describe elem fullName)
  | elem {tp elem : Id} {fullName : Str} (kind : (types tp).elem? = some elem) :
      Enters (.describe tp fullName) (.describe elem fullName)
  | struct {tp : Id} {fields : List (StructField Id)} {fullName : Str}
      (kind : types tp = .struct fields) :
      Enters (.describe tp fullName) (.fields .empty fields fullName)
  | embeddedPtr {tp elem : Id} {fullName : Str} (kind : types tp = .ptr elem) :
      Enters (.embedded tp fullName) (.embedded elem fullName)
  | embeddedMap {tp elem : Id} {fullName : Str} (kind : types tp = .map elem) :
      Enters (.embedded tp fullName) (.describe elem fullName)
  | embeddedStruct {tp : Id} {fields : List (StructField Id)} {fullName : Str}
      (kind : types tp = .struct fields) :
      Enters (.embedded tp fullName) (.describe tp fullName)
  | field {info : FieldInfo} {field : StructField Id} {left : List (StructField Id)}
      {fullName : Str} (exported : field.exported = true) :
      Enters (.fields info (field :: left) fullName) (field.call lower fullName)
  | next {info next : FieldInfo} {field : StructField Id} {left : List (StructField Id)}
      {fullName : Str} {fuel : Nat}
      (passes : buildField types lower fuel (buildFieldsInfo types lower fuel) info field fullName =
        some (.ok next)) :
      Enters (.fields info (field :: left) fullName) (.fields next left fullName)

/-- All chains that begin with the call have an end. -/
def Ends : Call Id → Prop := Acc fun inner outer => Enters types lower outer inner

variable {types lower} {tp ft elem : Id} {fullName : Str} {r : Built} {fuel : Nat}

theorem deref_below (tp : Id) : Below (deref types fuel tp) (deref types (fuel + 1) tp) := by
  induction fuel generalizing tp with
  | zero => exact fun _ result => absurd result (by simp [deref])
  | succ fuel ih =>
    rw [deref, deref]
    split
    · exact ih _
    · exact .refl _

section

variable {fuel' : Nat} {build build' : Id → Str → Option Built}
  (derefs : ∀ tp, Below (deref types fuel tp) (deref types fuel' tp))
  (builds : ∀ tp fullName, Below (build tp fullName) (build' tp fullName)) (info : FieldInfo)

include derefs builds

theorem buildAnonymousFieldInfo_below (key : Str) (ft : Id) (fullName : Str) :
    Below (buildAnonymousFieldInfo types fuel build info key ft fullName)
      (buildAnonymousFieldInfo types fuel' build' info key ft fullName) := by
  unfold buildAnonymousFieldInfo
  split
  · exact (builds _ _).bind fun _ => .refl _
  · exact (derefs _).bind fun _ => (builds _ _).bind fun _ => .refl _
  · exact .refl _

theorem buildNamedFieldInfo_below (key : Str) (ft : Id) (fullName : Str) :
    Below (buildNamedFieldInfo types fuel build info key ft fullName)
      (buildNamedFieldInfo types fuel' build' info key ft fullName) := by
  refine Below.bind ?_ fun _ => .refl _
  split
  case h_4 => exact (derefs _).bind fun _ => (builds _ _).bind fun _ => .refl _
  all_goals exact builds _ _

theorem buildField_below (field : StructField Id) (fullName : Str) :
    Below (buildField types lower fuel build info field fullName)
      (buildField types lower fuel' build' info field fullName) := by
  unfold buildField
  split
  · exact .refl _
  · refine (derefs _).bind fun ft => ?_
    split
    · exact buildAnonymousFieldInfo_below derefs builds _ _ _ _
    · exact buildNamedFieldInfo_below derefs builds _ _ _ _

theorem buildFields_below (fields : List (StructField Id)) (fullName : Str) :
    Below (buildFields types lower fuel build fullName info fields)
      (buildFields types lower fuel' build' fullName info fields) := by
  induction fields generalizing info with
  | nil => exact .refl _
  | cons field rest ih =>
    refine (buildField_below derefs builds info field fullName).bind fun result => ?_
    cases result with
    | error err => exact .refl _
    | ok next => exact ih next

end

/-- A type and one that it leads to over pointers are described alike. -/
theorem buildFieldsInfo_below {tp' : Id} {fuel' : Nat}
    (first : Below (deref types fuel tp) (deref types fuel' tp'))
    (derefs : ∀ tp, Below (deref types fuel tp) (deref types fuel' tp))
    (builds : ∀ tp fullName, Below (buildFieldsInfo types lower fuel tp fullName)
      (buildFieldsInfo types lower fuel' tp fullName)) :
    Below (buildFieldsInfo types lower (fuel + 1) tp fullName)
      (buildFieldsInfo types lower (fuel' + 1) tp' fullName) := by
  refine first.bind fun ft => ?_
  split
  · exact buildFields_below derefs builds _ _ _
  iterate 3
    · exact (derefs _).bind fun _ => builds _ _
  all_goals exact .refl _

theorem buildFieldsInfo_succ (tp : Id) (fullName : Str) :
    Below (buildFieldsInfo types lower fuel tp fullName)
      (buildFieldsInfo types lower (fuel + 1) tp fullName) := by
  induction fuel generalizing tp fullName with
  | zero => exact fun _ result => absurd result (by simp [buildFieldsInfo])
  | succ fuel ih => exact buildFieldsInfo_below (deref_below tp) deref_below ih

theorem buildField_succ (info : FieldInfo) (field : StructField Id) (fullName : Str) (fuel : Nat) :
    Below (buildField types lower fuel (buildFieldsInfo types lower fuel) info field fullName)
      (buildField types lower (fuel + 1) (buildFieldsInfo types lower (fuel + 1)) info field
        fullName) :=
  buildField_below deref_below buildFieldsInfo_succ info field fullName

theorem buildFields_succ (info : FieldInfo) (fields : List (StructField Id)) (fullName : Str)
    (fuel : Nat) :
    Below (buildFields types lower fuel (buildFieldsInfo types lower fuel) fullName info fields)
      (buildFields types lower (fuel + 1) (buildFieldsInfo types lower (fuel + 1)) fullName info
        fields) :=
  buildFields_below deref_below buildFieldsInfo_succ info fields fullName

theorem Ends.of_elem (kind : (types tp).elem? = some elem)
    (ends : Ends types lower (.describe elem fullName)) :
    Ends types lower (.describe tp fullName) := by
  refine ⟨_, fun inner enters => ?_⟩
  cases enters with
  | elem other =>
    cases kind.symm.trans other
    exact ends
  | ptr other | struct other => rw [other] at kind; cases kind

theorem ne_ptr_of_deref (found : deref types fuel tp = some ft) (elem : Id) :
    types ft ≠ .ptr elem := by
  induction fuel generalizing tp with
  | zero => cases found
  | succ fuel ih =>
    rw [deref] at found
    split at found
    · exact ih found
    · rename_i other
      cases found
      exact other elem

/-- The chains of a pointer go through the type that it leads to. -/
theorem Ends.of_deref (found : deref types fuel tp = some ft) :
    (Ends types lower (.describe ft fullName) → Ends types lower (.describe tp fullName)) ∧
      (Ends types lower (.embedded ft fullName) → Ends types lower (.embedded tp fullName)) := by
  induction fuel generalizing tp with
  | zero => cases found
  | succ fuel ih =>
    rw [deref] at found
    split at found
    · rename_i elem kind
      obtain ⟨describes, embeds⟩ := ih found
      refine ⟨fun below => ⟨_, fun inner enters => ?_⟩, fun below => ⟨_, fun inner enters => ?_⟩⟩
      · cases enters with
        | ptr other =>
          obtain rfl := TypeInfo.ptr.inj (kind.symm.trans other)
          exact describes below
        | elem other => rw [kind] at other; cases other
        | struct other => cases kind.symm.trans other
      · cases enters with
        | embeddedPtr other =>
          obtain rfl := TypeInfo.ptr.inj (kind.symm.trans other)
          exact embeds below
        | embeddedMap other | embeddedStruct other => cases kind.symm.trans other
    · cases found
      exact ⟨id, id⟩

section

variable {info : FieldInfo} {field : StructField Id} {key : Str}
  (builds : ∀ {tp fullName r}, buildFieldsInfo types lower fuel tp fullName = some r →
    Ends types lower (.describe tp fullName))

include builds

theorem ends_embedded (notPtr : ∀ elem, types ft ≠ .ptr elem)
    (result : buildAnonymousFieldInfo types fuel (buildFieldsInfo types lower fuel) info key ft
      fullName = some r) : Ends types lower (.embedded ft fullName) := by
  refine ⟨_, fun inner enters => ?_⟩
  rw [buildAnonymousFieldInfo] at result
  cases enters with
  | embeddedPtr kind => exact absurd kind (notPtr _)
  | embeddedStruct kind =>
    rw [kind] at result
    obtain ⟨built, describes, -⟩ := bind_eq_some_iff.mp result
    exact builds describes
  | embeddedMap kind =>
    rw [kind] at result
    obtain ⟨inner, found, result⟩ := bind_eq_some_iff.mp result
    obtain ⟨built, describes, -⟩ := bind_eq_some_iff.mp result
    exact (Ends.of_deref found).1 (builds describes)

theorem ends_named
    (result : buildNamedFieldInfo types fuel (buildFieldsInfo types lower fuel) info key ft
      fullName = some r) : Ends types lower (.describe ft fullName) := by
  rw [buildNamedFieldInfo] at result
  obtain ⟨built, describes, -⟩ := bind_eq_some_iff.mp result
  split at describes
  · exact builds describes
  case h_2 elem kind | h_3 elem kind =>
    exact .of_elem (by rw [kind]; rfl) (builds describes)
  case h_4 elem kind =>
    obtain ⟨inner, found, describes⟩ := bind_eq_some_iff.mp describes
    obtain ⟨built, describes, -⟩ := bind_eq_some_iff.mp describes
    exact .of_elem (by rw [kind]; rfl) ((Ends.of_deref found).1 (builds describes))
  · exact builds describes

theorem ends_field (exported : field.exported = true)
    (result : buildField types lower fuel (buildFieldsInfo types lower fuel) info field fullName =
      some r) : Ends types lower (field.call lower fullName) := by
  rw [buildField, if_neg (by simp [exported])] at result
  obtain ⟨ft, found, result⟩ := bind_eq_some_iff.mp result
  rw [StructField.call]
  split at result
  · rename_i anonymous
    rw [if_pos anonymous]
    exact (Ends.of_deref found).2 (ends_embedded builds (ne_ptr_of_deref found) result)
  · rename_i named
    rw [if_neg named]
    exact (Ends.of_deref found).1 (ends_named builds result)

theorem ends_fields {fields : List (StructField Id)}
    (result : buildFields types lower fuel (buildFieldsInfo types lower fuel) fullName info fields =
      some r) : Ends types lower (.fields info fields fullName) := by
  induction fields generalizing info with
  | nil => exact ⟨_, fun inner enters => by cases enters⟩
  | cons field rest ih =>
    obtain ⟨built, one, result⟩ := bind_eq_some_iff.mp result
    refine ⟨_, fun inner enters => ?_⟩
    cases enters with
    | field exported => exact ends_field builds exported one
    | next passes =>
      -- the bound of the chain and that of the result give the same
      obtain rfl := Below.unique (buildField_succ info field fullName) one passes
      exact ih result

end

/-- A description that has a result has an end. -/
theorem ends_of_result (result : buildFieldsInfo types lower fuel tp fullName = some r) :
    Ends types lower (.describe tp fullName) := by
  induction fuel generalizing tp fullName r with
  | zero => cases result
  | succ fuel ih =>
    rw [buildFieldsInfo] at result
    obtain ⟨ft, found, result⟩ := bind_eq_some_iff.mp result
    refine (Ends.of_deref found).1 ⟨_, fun inner enters => ?_⟩
    cases enters with
    | ptr kind => exact absurd kind (ne_ptr_of_deref found _)
    | struct kind =>
      rw [kind] at result
      exact ends_fields ih result
    | @elem _ elem _ kind =>
      have inside : (deref types fuel elem >>= fun elem =>
          buildFieldsInfo types lower fuel elem fullName) = some r := by
        cases shape : types ft <;> rw [shape] at kind result <;> cases kind
        all_goals exact result
      obtain ⟨inner, foundInner, inside⟩ := bind_eq_some_iff.mp inside
      exact (Ends.of_deref foundInner).1 (ih inside)

theorem deref_self (notPtr : ∀ elem, types tp ≠ .ptr elem) (fuel : Nat) :
    deref types (fuel + 1) tp = some tp := by
  rw [deref]
  split
  · rename_i elem kind
    exact absurd kind (notPtr elem)
  · rfl

/-- A type is described as what is left of it without pointers. -/
theorem exists_deref (result : buildFieldsInfo types lower fuel tp fullName = some r) :
    ∃ ft, deref types fuel tp = some ft ∧ buildFieldsInfo types lower fuel ft fullName = some r := by
  cases fuel with
  | zero => cases result
  | succ fuel =>
    obtain ⟨ft, found, result⟩ := bind_eq_some_iff.mp result
    refine ⟨ft, deref_below tp ft found, bind_eq_some_iff.mpr ⟨ft, ?_, result⟩⟩
    cases fuel with
    | zero => cases found
    | succ fuel => exact deref_self (ne_ptr_of_deref found) fuel

theorem result_of_deref (found : deref types fuel tp = some ft)
    (result : buildFieldsInfo types lower fuel ft fullName = some r) :
    buildFieldsInfo types lower (fuel + 1) tp fullName = some r := by
  cases fuel with
  | zero => cases found
  | succ fuel =>
    refine buildFieldsInfo_below ?_ deref_below buildFieldsInfo_succ r result
    intro other same
    have self := deref_self (ne_ptr_of_deref found) fuel
    rw [found, ← self]
    exact deref_below ft other same

/-- A type with elements is described as they are. -/
theorem result_elem (kind : (types tp).elem? = some elem)
    (result : buildFieldsInfo types lower fuel elem fullName = some r) :
    buildFieldsInfo types lower (fuel + 2) tp fullName = some r := by
  obtain ⟨inner, found, below⟩ := exists_deref result
  have inside : (deref types (fuel + 1) elem >>= fun elem =>
      buildFieldsInfo types lower (fuel + 1) elem fullName) = some r :=
    bind_eq_some_iff.mpr ⟨inner, deref_below elem inner found, buildFieldsInfo_succ inner _ r below⟩
  rw [buildFieldsInfo]
  cases shape : types tp <;> rw [shape] at kind <;> cases kind
  all_goals
    rw [deref_self (by rw [shape]; simp), bind_eq_bind, bind_some, shape]
    exact inside

theorem elem_result (kind : (types tp).elem? = some elem)
    (result : buildFieldsInfo types lower fuel tp fullName = some r) :
    buildFieldsInfo types lower fuel elem fullName = some r := by
  cases fuel with
  | zero => cases result
  | succ fuel =>
    obtain ⟨ft, found, result⟩ := bind_eq_some_iff.mp result
    have notPtr : ∀ other, types tp ≠ .ptr other := by
      intro other ptr
      rw [ptr] at kind
      cases kind
    have self := deref_self notPtr fuel
    cases self.symm.trans (deref_below tp ft found)
    cases shape : types tp <;> rw [shape] at kind result <;> cases kind
    all_goals
      obtain ⟨inner, foundInner, result⟩ := bind_eq_some_iff.mp result
      exact result_of_deref foundInner result

theorem exists_named (returns : buildFieldsInfo types lower fuel tp fullName = some r)
    (info : FieldInfo) (key : Str) : ∃ ft r', deref types fuel tp = some ft ∧
      buildNamedFieldInfo types fuel (buildFieldsInfo types lower fuel) info key ft fullName =
        some r' := by
  obtain ⟨ft, found, below⟩ := exists_deref returns
  have inside : ∀ elem, (types ft).elem? = some elem →
      buildFieldsInfo types lower fuel elem fullName = some r := fun _ kind => elem_result kind below
  have named : (buildNamedFieldInfo types fuel (buildFieldsInfo types lower fuel) info key ft
      fullName).isSome := by
    rw [buildNamedFieldInfo]
    split
    · simp [below]
    case h_2 elem kind | h_3 elem kind => simp [inside elem (by rw [kind]; rfl)]
    case h_4 elem kind =>
      obtain ⟨inner, foundInner, describes⟩ := exists_deref (inside elem (by rw [kind]; rfl))
      simp [foundInner, describes]
    · simp [below]
  obtain ⟨r', result⟩ := isSome_iff_exists.mp named
  exact ⟨ft, r', found, result⟩

variable (types lower) in
def Call.Returns : Call Id → Prop
  | describe tp fullName => ∃ fuel r, buildFieldsInfo types lower fuel tp fullName = some r
  | embedded tp fullName => ∀ info key, ∃ fuel ft r, deref types fuel tp = some ft ∧
      buildAnonymousFieldInfo types fuel (buildFieldsInfo types lower fuel) info key ft fullName =
        some r
  | fields info left fullName => ∃ fuel r,
      buildFields types lower fuel (buildFieldsInfo types lower fuel) fullName info left = some r

theorem returns_of_ends {c : Call Id} (ends : Ends types lower c) : c.Returns types lower := by
  induction ends with
  | intro c _ ih =>
    cases c with
    | describe tp fullName =>
      cases kind : types tp with
      | ptr elem =>
        obtain ⟨fuel, r, result⟩ := ih _ (.ptr kind)
        refine ⟨fuel + 1, r, ?_⟩
        cases fuel with
        | zero => cases result
        | succ fuel =>
          refine buildFieldsInfo_below ?_ deref_below buildFieldsInfo_succ r result
          simp only [deref, kind]
          exact .refl _
      | array elem | slice elem | map elem =>
        have isElem : (types tp).elem? = some elem := by rw [kind]; rfl
        obtain ⟨fuel, r, result⟩ := ih _ (.elem isElem)
        exact ⟨fuel + 2, r, result_elem isElem result⟩
      | struct fields =>
        obtain ⟨fuel, r, result⟩ := ih _ (.struct kind)
        refine ⟨fuel + 2, r, bind_eq_some_iff.mpr ⟨tp, deref_self (by rw [kind]; simp) fuel, ?_⟩⟩
        rw [kind]
        exact buildFields_succ .empty fields fullName fuel r result
      | chan | func | other => exact ⟨2, _, by simp [buildFieldsInfo, deref, kind]; rfl⟩
    | embedded tp fullName =>
      intro info key
      cases kind : types tp with
      | ptr elem =>
        obtain ⟨fuel, ft, r, found, result⟩ := ih _ (.embeddedPtr kind) info key
        refine ⟨fuel + 1, ft, r, by rw [deref, kind]; exact found, ?_⟩
        exact buildAnonymousFieldInfo_below deref_below buildFieldsInfo_succ _ _ _ _ r result
      | struct fields =>
        obtain ⟨fuel, r, result⟩ := ih _ (.embeddedStruct kind)
        have described := buildFieldsInfo_succ _ _ _ result
        exact ⟨fuel + 1, tp, _, deref_self (by rw [kind]; simp) fuel,
          by simp [buildAnonymousFieldInfo, kind, described]; rfl⟩
      | map elem =>
        obtain ⟨fuel, r, result⟩ := ih _ (.embeddedMap kind)
        obtain ⟨inner, found, below⟩ := exists_deref result
        have described := buildFieldsInfo_succ _ _ _ below
        exact ⟨fuel + 1, tp, _, deref_self (by rw [kind]; simp) fuel,
          by simp [buildAnonymousFieldInfo, kind, deref_below _ _ found, described]; rfl⟩
      | array elem | slice elem | chan | func | other =>
        exact ⟨1, tp, _, deref_self (by rw [kind]; simp) 0,
          by rw [buildAnonymousFieldInfo, kind]; rfl⟩
    | fields info left fullName =>
      cases left with
      | nil => exact ⟨0, _, rfl⟩
      | cons field rest =>
        have one : ∃ fuel r, buildField types lower fuel (buildFieldsInfo types lower fuel) info
            field fullName = some r := by
          cases exported : field.exported with
          | false => exact ⟨0, _, by simp [buildField, exported]; rfl⟩
          | true =>
            have returns := ih _ (.field exported)
            rw [StructField.call] at returns
            split at returns
            · rename_i anonymous
              obtain ⟨fuel, ft, r, found, result⟩ := returns info (lower (getTagName field))
              exact ⟨fuel, r, by simp [buildField, exported, anonymous, found, result]⟩
            · rename_i named
              obtain ⟨fuel, r, describes⟩ := returns
              obtain ⟨ft, r', found, result⟩ :=
                exists_named describes info (lower (getTagName field))
              exact ⟨fuel, r', by simp [buildField, exported, named, found, result]⟩
        obtain ⟨fuel, built, passes⟩ := one
        cases built with
        | error err => exact ⟨fuel, _, by simp [buildFields, passes]; rfl⟩
        | ok next =>
          obtain ⟨more, r, result⟩ := ih _ (.next passes)
          refine ⟨max fuel more, r, bind_eq_some_iff.mpr ⟨.ok next, ?_, ?_⟩⟩
          · exact Below.of_le (buildField_succ _ _ _) (Nat.le_max_left fuel more) _ passes
          · exact Below.of_le (buildFields_succ _ _ _) (Nat.le_max_right fuel more) _ result

def nextField : StructField Bool := ⟨Str.bytes "Next", none, false, false, true⟩

/-- `type Node struct { Next *Node }`: the struct, and the pointer to it. -/
def listTypes : Bool → TypeInfo Bool
  | true => .struct [nextField]
  | false => .ptr true

end FastGoZero.Conf
