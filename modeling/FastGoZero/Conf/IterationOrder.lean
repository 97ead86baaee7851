import FastGoZero.Conf.LowerCase
import FastGoZero.Lib.CaseMapping

/-!
# Rewriting keys in any order

The loop over an object writes its entries to a new object, and two keys that differ in their
letters only may be written to the same key. Then the entry that is visited last wins. So the
result does not depend on the orders of the loops exactly if, at every depth, entries of one object
that are written to the same key agree.
-/

namespace FastGoZero.Conf

open Lib Lib.Document List Option
open Lib.Str (bytes)

variable {α : Type} {lower : Str → Str} {info : FieldInfo} {orders : RangeOrders α}
  {path : List Nat} {key : Str}

/-- Two values that are rewritten in the same way, and agree but for the letters of the keys that
are lost in rewriting: each entry of one object has an entry of the other that is written to the
same key, and any two such entries agree. -/
inductive Alike (lower : Str → Str) : Rewrite → Document α → Document α → Prop
  | scalar (how : Rewrite) (value : α) : Alike lower how (.scalar value) (.scalar value)
  | rewrittenArray {info : FieldInfo} {elems others : List (Document α)}
      (length : elems.length = others.length)
      (alike : ∀ (i : Nat) v w, elems[i]? = some v → others[i]? = some w →
        Alike lower (.interface info) v w) :
      Alike lower (.interface info) (.array elems) (.array others)
  | keptArray {info : FieldInfo} {elems others : List (Document α)}
      (same : Same (.array elems) (.array others)) :
      Alike lower (.keyMap info) (.array elems) (.array others)
  | object {how : Rewrite} {entries others : List (Str × Document α)}
      (forth : ∀ a ∈ entries, ∃ b ∈ others,
        (target lower how.info b.1).1 = (target lower how.info a.1).1)
      (back : ∀ b ∈ others, ∃ a ∈ entries,
        (target lower how.info a.1).1 = (target lower how.info b.1).1)
      (alike : ∀ a ∈ entries, ∀ b ∈ others,
        (target lower how.info a.1).1 = (target lower how.info b.1).1 →
        Alike lower (target lower how.info a.1).2 a.2 b.2) :
      Alike lower how (.object entries) (.object others)

/-- Entries with different keys that are written to the same key are rewritten in the same way. -/
theorem target_snd_eq {k k' : Str} (together : (target lower info k).1 = (target lower info k').1) :
    (target lower info k).2 = (target lower info k').2 := by
  have cases : ∀ k, (info.child? (target lower info k).1 = none ∧ (target lower info k).1 = k) ∨
      ∃ ti, info.child? (target lower info k).1 = some ti ∧
        (target lower info k).2 = .interface ti := by
    intro k
    rw [target.eq_def]
    split
    · rename_i ti found
      exact .inr ⟨ti, found, rfl⟩
    · rename_i notField
      split
      · rename_i ti found
        exact .inr ⟨ti, found, rfl⟩
      · split
        · exact .inl ⟨notField, rfl⟩
        · exact .inl ⟨notField, rfl⟩
  rcases cases k with ⟨kept, same⟩ | ⟨ti, found, how⟩
  · rcases cases k' with ⟨keptToo, sameToo⟩ | ⟨ti', found', how'⟩
    · rw [← same, together, sameToo]
    · rw [together, found'] at kept
      cases kept
  · rcases cases k' with ⟨keptToo, sameToo⟩ | ⟨ti', found', how'⟩
    · rw [together, keptToo] at found
      cases found
    · rw [together, found'] at found
      rw [how, how', some.inj found]

theorem mem_rewriteEntries {start : Nat} {entries : List (Str × Document α)}
    {written : Str × Document α}
    (mem : written ∈ rewriteEntries lower orders path start info entries) :
    ∃ i entry, entry ∈ entries ∧ written = rewriteEntry lower orders path i info entry := by
  obtain ⟨i, found⟩ := getElem?_of_mem mem
  rw [getElem?_rewriteEntries, map_eq_some_iff] at found
  obtain ⟨entry, listed, same⟩ := found
  exact ⟨start + i, entry, mem_of_getElem? listed, same.symm⟩

/-- What is read under a key is what some entry is rewritten to. -/
theorem lookup_rewritten {entries : List (Str × Document α)} {v : Document α}
    (found : lookup (toLowerCaseKeyMap lower orders path entries info) key = some v) :
    ∃ i entry, entry ∈ entries ∧ (target lower info entry.1).1 = key ∧
      v = rewrite lower orders (path ++ [i]) (target lower info entry.1).2 entry.2 := by
  rw [toLowerCaseKeyMap, lookup_foldl_assign, map_eq_some_iff] at found
  obtain ⟨written, last, rfl⟩ := found
  obtain ⟨visited, isKey⟩ := mem_filter.mp (mem_of_getLast? last)
  obtain ⟨i, entry, mem, rfl⟩ := mem_rewriteEntries ((orders.perm _ _).mem_iff.mp visited)
  rw [decide_eq_true_eq, rewriteEntry_fst] at isKey
  exact ⟨i, entry, mem, isKey, rewriteEntry_snd ..⟩

theorem lookup_eq_none_iff {entries : List (Str × Document α)} :
    lookup (toLowerCaseKeyMap lower orders path entries info) key = none ↔
      ∀ entry ∈ entries, (target lower info entry.1).1 ≠ key := by
  rw [toLowerCaseKeyMap, lookup_foldl_assign_eq_none]
  constructor
  · intro nowhere entry mem
    obtain ⟨i, listed⟩ := getElem?_of_mem mem
    have written : rewriteEntry lower orders path (0 + i) info entry ∈
        rewriteEntries lower orders path 0 info entries := by
      apply mem_of_getElem? (i := i)
      rw [getElem?_rewriteEntries, listed]
      rfl
    have other := nowhere _ ((orders.perm _ _).mem_iff.mpr written)
    rwa [rewriteEntry_fst] at other
  · intro nowhere written visited
    obtain ⟨i, entry, mem, rfl⟩ := mem_rewriteEntries ((orders.perm _ _).mem_iff.mp visited)
    rw [rewriteEntry_fst]
    exact nowhere entry mem

/-- Values that are alike are rewritten to the same value in all orders, wherever they stand. -/
theorem Alike.same {how : Rewrite} {v w : Document α} (alike : Alike lower how v w)
    (first second : RangeOrders α) (here there : List Nat) :
    Same (rewrite lower first here how v) (rewrite lower second there how w) := by
  induction alike generalizing here there with
  | scalar how value => exact Same.refl _
  | rewrittenArray length _ ih =>
    refine same_array (by simp only [length_rewriteElems, length]) ?_
    intro i v w foundFirst foundSecond
    rw [getElem?_rewriteElems, map_eq_some_iff] at foundFirst foundSecond
    obtain ⟨x, listed, rfl⟩ := foundFirst
    obtain ⟨y, listedToo, rfl⟩ := foundSecond
    exact ih i x y listed listedToo _ _
  | keptArray same => exact same
  | @object how entries others forth back _ ih =>
    refine same_object ?_
    intro key path
    change (lookup (toLowerCaseKeyMap lower first here entries how.info) key).bind (read path) =
      (lookup (toLowerCaseKeyMap lower second there others how.info) key).bind (read path)
    cases foundFirst : lookup (toLowerCaseKeyMap lower first here entries how.info) key with
    | none =>
      have nowhere := lookup_eq_none_iff.mp foundFirst
      have nowhereToo : lookup (toLowerCaseKeyMap lower second there others how.info) key =
          none := by
        rw [lookup_eq_none_iff]
        intro b mem isKey
        obtain ⟨a, memberToo, together⟩ := back b mem
        exact nowhere a memberToo (together.trans isKey)
      rw [nowhereToo]
    | some v =>
      obtain ⟨i, a, memberA, keyA, rfl⟩ := lookup_rewritten foundFirst
      cases foundSecond : lookup (toLowerCaseKeyMap lower second there others how.info) key with
      | none =>
        obtain ⟨b, memberB, together⟩ := forth a memberA
        exact absurd (together.trans keyA) (lookup_eq_none_iff.mp foundSecond b memberB)
      | some w =>
        obtain ⟨j, b, memberB, keyB, rfl⟩ := lookup_rewritten foundSecond
        have together := keyA.trans keyB.symm
        rw [← target_snd_eq together]
        exact ih a memberA b memberB together _ _ path

variable (orders : RangeOrders α)

/-- The entry at a place is visited last in the object at a path. -/
def RangeOrders.last (place : List Nat) (i : Nat) : RangeOrders α where
  visit path entries :=
    if path = place then entries.eraseIdx i ++ (entries[i]?).toList else orders.visit path entries
  perm path entries := by
    split
    · by_cases inside : i < entries.length
      · rw [getElem?_eq_getElem inside, toList_some]
        exact (perm_append_singleton _ _).trans (getElem_cons_eraseIdx_perm inside)
      · rw [eraseIdx_of_length_le (by omega), getElem?_eq_none (by omega)]
        simp
    · exact orders.perm path entries

theorem RangeOrders.visit_last (path : List Nat) (i : Nat) (entries : List (Str × Document α))
    : (orders.last path i).visit path entries = entries.eraseIdx i ++ (entries[i]?).toList :=
  if_pos rfl

/-- Only the orders in the document itself matter. -/
theorem rewrite_congr (v : Document α) (how : Rewrite) (first second : RangeOrders α)
    (path : List Nat)
    (agree : ∀ further, path <+: further → first.visit further = second.visit further) :
    rewrite lower first path how v = rewrite lower second path how v := by
  induction v using induction generalizing how path with
  | scalar value => rfl
  | array elems ih =>
    cases how with
    | keyMap info => rfl
    | interface info =>
      rw [rewrite, rewrite]
      congr 1
      refine ext_getElem? fun i => ?_
      rw [getElem?_rewriteElems, getElem?_rewriteElems]
      cases listed : elems[i]? with
      | none => rfl
      | some x =>
        rw [map_some, map_some, ih x (mem_of_getElem? listed)]
        intro further longer
        exact agree further ((prefix_append _ _).trans longer)
  | object entries ih =>
    have same : rewriteEntries lower first path 0 how.info entries =
        rewriteEntries lower second path 0 how.info entries := by
      refine ext_getElem? fun i => ?_
      rw [getElem?_rewriteEntries, getElem?_rewriteEntries]
      cases listed : entries[i]? with
      | none => rfl
      | some entry =>
        rw [map_some, map_some, rewriteEntry, rewriteEntry, ih entry (mem_of_getElem? listed)]
        intro further longer
        exact agree further ((prefix_append _ _).trans longer)
    rw [rewrite, rewrite, same, agree path prefix_rfl]

/-- The entry that is visited last is read under its key. -/
theorem lookup_last (path : List Nat) (info : FieldInfo) {entries : List (Str × Document α)}
    {i : Nat} {entry : Str × Document α} (listed : entries[i]? = some entry) :
    lookup (toLowerCaseKeyMap lower (orders.last path i) path entries info)
        (target lower info entry.1).1 =
      some (rewrite lower orders (path ++ [i]) (target lower info entry.1).2 entry.2) := by
  have written : (rewriteEntries lower (orders.last path i) path 0 info entries)[i]? =
      some (rewriteEntry lower (orders.last path i) path i info entry) := by
    rw [getElem?_rewriteEntries, listed, Nat.zero_add]
    rfl
  have beyond : rewrite lower (orders.last path i) (path ++ [i]) (target lower info entry.1).2
      entry.2 = rewrite lower orders (path ++ [i]) (target lower info entry.1).2 entry.2 := by
    apply rewrite_congr
    intro further longer
    have differs : further ≠ path := by
      rintro rfl
      have short := longer.length_le
      rw [length_append, length_singleton] at short
      omega
    funext entries
    exact if_neg differs
  rw [toLowerCaseKeyMap, RangeOrders.visit_last, written, toList_some,
    ← rewriteEntry_fst lower (orders.last path i) path i, lookup_foldl_assign_last,
    rewriteEntry_snd, beyond]

/-- Each entry is written to some place that can be read. -/
theorem exists_entry_of_same {first second : RangeOrders α} {here there : List Nat}
    {entries others : List (Str × Document α)}
    (same : Same (.object (toLowerCaseKeyMap lower first here entries info))
      (.object (toLowerCaseKeyMap lower second there others info))) {a : Str × Document α}
    (mem : a ∈ entries) : ∃ b ∈ others, (target lower info b.1).1 = (target lower info a.1).1 := by
  by_contra nowhere
  have missing : lookup (toLowerCaseKeyMap lower second there others info)
      (target lower info a.1).1 = none := by
    rw [lookup_eq_none_iff]
    intro b memberB together
    exact nowhere ⟨b, memberB, together⟩
  cases found : lookup (toLowerCaseKeyMap lower first here entries info)
      (target lower info a.1).1 with
  | none => exact lookup_eq_none_iff.mp found a mem rfl
  | some v =>
    have here := same [.key (target lower info a.1).1]
    rw [Document.read, Document.read, found, missing] at here
    cases here

/-- Values that all orders rewrite to the same value are alike. -/
theorem alike_of_same (v w : Document α) (how : Rewrite) (here there : List Nat)
    (same : ∀ first second : RangeOrders α,
      Same (rewrite lower first here how v) (rewrite lower second there how w)) :
    Alike lower how v w := by
  have shapes := (same .listed .listed).shape_eq
  rw [shape_rewrite, shape_rewrite] at shapes
  induction v using induction generalizing w how here there with
  | scalar value =>
    cases w with
    | scalar other =>
      obtain rfl := Shape.scalar.inj shapes
      exact .scalar how value
    | array others | object others => cases shapes
  | array elems ih =>
    cases w with
    | scalar other | object others => cases shapes
    | array others =>
      cases how with
      | keyMap info => exact .keptArray (same .listed .listed)
      | interface info =>
        refine .rewrittenArray (Shape.array.inj shapes) ?_
        intro i v w listed listedToo
        have inside : ∀ first second : RangeOrders α,
            Same (rewrite lower first (here ++ [0 + i]) (.interface info) v)
              (rewrite lower second (there ++ [0 + i]) (.interface info) w) := by
          intro first second
          refine (same first second).elem (i := i) ?_ ?_
          · rw [getElem?_rewriteElems, listed, map_some]
          · rw [getElem?_rewriteElems, listedToo, map_some]
        have shapesInside := (inside .listed .listed).shape_eq
        rw [shape_rewrite, shape_rewrite] at shapesInside
        exact ih v (mem_of_getElem? listed) w _ _ _ inside shapesInside
  | object entries ih =>
    cases w with
    | scalar other | array others => cases shapes
    | object others =>
      refine .object ?_ ?_ ?_
      · intro a mem
        exact exists_entry_of_same (same .listed .listed) mem
      · intro b mem
        exact exists_entry_of_same (same .listed .listed).symm mem
      · intro a memberA b memberB together
        obtain ⟨i, listedA⟩ := getElem?_of_mem memberA
        obtain ⟨j, listedB⟩ := getElem?_of_mem memberB
        have inside : ∀ first second : RangeOrders α,
            Same (rewrite lower first (here ++ [i]) (target lower how.info a.1).2 a.2)
              (rewrite lower second (there ++ [j]) (target lower how.info a.1).2 b.2) := by
          intro first second
          have readB := @lookup_last α lower second there how.info _ _ _ listedB
          rw [← together, ← target_snd_eq together] at readB
          exact (same (first.last here i) (second.last there j)).lookup
            (lookup_last first here how.info listedA) readB
        have shapesInside := (inside .listed .listed).shape_eq
        rw [shape_rewrite, shape_rewrite] at shapesInside
        exact ih a memberA b.2 _ _ _ inside shapesInside

/-- The rewritten configuration is the same in all orders exactly if, at every depth, entries that
are written to the same key have values that are alike. -/
theorem toLowerCaseKeyMap_same_iff (lower : Str → Str) (info : FieldInfo)
    (m : List (Str × Document α)) :
    (∀ first second : RangeOrders α,
        Same (.object (toLowerCaseKeyMap lower first [] m info))
          (.object (toLowerCaseKeyMap lower second [] m info))) ↔
      Alike lower (.interface info) (.object m) (.object m) := by
  constructor
  · intro same
    exact alike_of_same (.object m) (.object m) (.interface info) [] [] same
  · intro alike first second
    exact alike.same first second [] []

/-- Of two spellings of the name of a field, the one that is visited last decides. -/
theorem spelling_visited_last_decides :
    ∃ first second : RangeOrders Nat,
      Document.read [.key (bytes "name")]
          (.object (toLowerCaseKeyMap CaseMapping.asciiOnly.toLower first []
            [(bytes "Name", .scalar 1), (bytes "name", .scalar 2)]
            (.mk [(bytes "name", .empty)] none))) = some (.scalar 2) ∧
      Document.read [.key (bytes "name")]
          (.object (toLowerCaseKeyMap CaseMapping.asciiOnly.toLower second []
            [(bytes "Name", .scalar 1), (bytes "name", .scalar 2)]
            (.mk [(bytes "name", .empty)] none))) = some (.scalar 1) :=
  ⟨.listed, RangeOrders.listed.last [] 0, by decide +kernel, by decide +kernel⟩

end FastGoZero.Conf
