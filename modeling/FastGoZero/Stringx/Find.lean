import FastGoZero.Stringx.FailLinks

/-!
# The matches that the trie reports

While `find` reads a text, it stands at the node of the longest suffix that the trie spells. The
keywords that end there are the ends along the fail links, so each occurrence of a keyword is
reported once, when its last rune is read.
-/

namespace FastGoZero.Stringx

open Lib List
open Lib.Str (bytes)

variable (words : List (List Nat))

/-- The text between the two positions is one of the words. -/
def Occurs (text : List Nat) (scope : Scope) : Prop :=
  scope.start ≤ scope.stop ∧ scope.stop ≤ text.length ∧
    (text.take scope.stop).drop scope.start ∈ words

instance (words : List (List Nat)) (text : List Nat) (scope : Scope) :
    Decidable (Occurs words text scope) :=
  inferInstanceAs (Decidable (_ ∧ _ ∧ _))

/-- The words that end at one position. -/
def EndsAt (label : List Nat) (stop : Nat) (scope : Scope) : Prop :=
  scope.stop = stop ∧ ∃ word ∈ words, word <:+ label ∧ scope.start = stop - word.length

variable {trie : Trie} {labels words : List (List Nat)}

/-- One more rune: the occurrences before, and the words that it ends. -/
theorem occurs_concat (text : List Nat) (char : Nat) (scope : Scope) :
    Occurs words (text ++ [char]) scope ↔
      Occurs words text scope ∨ EndsAt words (text ++ [char]) (text.length + 1) scope := by
  constructor
  · rintro ⟨ordered, within, mem⟩
    rcases Nat.lt_or_ge text.length scope.stop with last | before
    · have stop : scope.stop = text.length + 1 := by
        rw [length_append, length_singleton] at within
        omega
      have whole : (text ++ [char]).take scope.stop = text ++ [char] :=
        take_of_length_le (by simp [stop])
      rw [whole] at mem
      refine Or.inr ⟨stop, _, mem, drop_suffix _ _, ?_⟩
      rw [length_drop, length_append, length_singleton]
      omega
    · rw [take_append_of_le_length before] at mem
      exact Or.inl ⟨ordered, before, mem⟩
  · rintro (⟨ordered, within, mem⟩ | ⟨stop, word, mem, suffix, start⟩)
    · refine ⟨ordered, by simp; omega, ?_⟩
      rwa [take_append_of_le_length within]
    · have whole : (text ++ [char]).take scope.stop = text ++ [char] :=
        take_of_length_le (by simp [stop])
      refine ⟨by omega, by simp [stop], ?_⟩
      have dropped := suffix_iff_eq_drop.mp suffix
      rw [length_append, length_singleton, ← start] at dropped
      rwa [whole, ← dropped]

namespace Trie

section

variable (built : Built trie labels words) {text : List Nat}

include built

/-- Following the fail links from a node that the rune does not continue. -/
theorem fall_spec {char : Nat} (turns : Nat) :
    ∀ {cur : Nat} {label : List Nat}, labels[cur]? = some label → label.length < turns →
    Live (· ∈ labels) text char label → label ++ [char] ∉ labels →
    ∃ next child suffix, trie.fall char turns cur = .ok (next, child) ∧
      labels[next]? = some suffix ∧ Longest (· ∈ labels) (text ++ [char]) suffix ∧
      (child = some next ∨ (child = none ∧ suffix = [])) := by
  have spelled := built.spelled
  induction turns with
  | zero => intro cur label _ bound; omega
  | succ turns ih =>
    intro cur label at_cur bound live stuck
    by_cases empty : label = []
    · subst empty
      obtain rfl := (spelled.root_iff at_cur).mpr rfl
      refine ⟨root, none, [], by simp [fall], at_cur, live.lost stuck, Or.inr ⟨rfl, rfl⟩⟩
    · have notRoot : cur ≠ root := fun same => empty ((spelled.root_iff at_cur).mp same)
      obtain ⟨_, node, f, suffix, stored, link, at_f, longest⟩ :=
        built.linked cur label at_cur empty
      have shorter := longest.length_lt empty
      have next := live.next spelled.closed stuck longest
      cases found : trie.child f char with
      | some child =>
        have at_child := (spelled.child_iff at_f char child).mp found
        refine ⟨child, some child, _, ?_, at_child, next.found (mem_of_getElem? at_child),
          Or.inl rfl⟩
        simp [fall, notRoot, deref_of_read stored, link, found, bind, Except.bind]
      | none =>
        have unfolds : trie.fall char (turns + 1) cur = trie.fall char turns f := by
          simp [fall, notRoot, deref_of_read stored, link, found, bind, Except.bind]
        rw [unfolds]
        exact ih at_f (by omega) next ((spelled.child_none_iff at_f char).mp found)

theorem advance_spec {cur : Nat} {label : List Nat} (at_cur : labels[cur]? = some label)
    (longest : Longest (· ∈ labels) text label) (char : Nat) :
    ∃ next child suffix, trie.advance cur char = .ok (next, child) ∧
      labels[next]? = some suffix ∧ Longest (· ∈ labels) (text ++ [char]) suffix ∧
      (child = some next ∨ (child = none ∧ suffix = [])) := by
  have spelled := built.spelled
  have live := longest.live spelled.closed char
  cases found : trie.child cur char with
  | some child =>
    have at_child := (spelled.child_iff at_cur char child).mp found
    exact ⟨child, some child, _, by simp [advance, found], at_child,
      live.found (mem_of_getElem? at_child), Or.inl rfl⟩
  | none =>
    have bound := spelled.length_lt_size at_cur
    rw [advance, found]
    exact fall_spec built _ at_cur (by omega) live ((spelled.child_none_iff at_cur char).mp found)

/-- The ends along the fail links are the words that are suffixes of the label. -/
theorem report_spec (nonempty : [] ∉ words) {i : Nat} (turns : Nat) :
    ∀ {child : Nat} {label : List Nat} (scopes : List Scope),
    labels[child]? = some label → label.length < turns → label.length ≤ i + 1 →
    ∃ new, trie.report i turns child scopes = .ok (scopes ++ new) ∧ new.Nodup ∧
      ∀ scope, scope ∈ new ↔ EndsAt words label (i + 1) scope := by
  have spelled := built.spelled
  induction turns with
  | zero => intro child label _ _ bound; omega
  | succ turns ih =>
    intro child label scopes at_child bound read
    by_cases empty : label = []
    · subst empty
      obtain rfl := (spelled.root_iff at_child).mpr rfl
      refine ⟨[], by simp [report], nodup_nil, ?_⟩
      intro scope
      simp [EndsAt, nonempty]
    · have notRoot : child ≠ root := fun same => empty ((spelled.root_iff at_child).mp same)
      obtain ⟨_, node, f, suffix, stored, link, at_f, longest⟩ :=
        built.linked child label at_child empty
      obtain ⟨_, stored', spells⟩ := spelled.node child label at_child
      cases stored.symm.trans stored'
      have shorter := longest.length_lt empty
      obtain ⟨first, rest, rfl⟩ := exists_cons_of_ne_nil empty
      -- the words that end here are the label itself and those that end at the fail link
      have splits : ∀ scope, EndsAt words (first :: rest) (i + 1) scope ↔
          (scope = ⟨i + 1 - node.depth, i + 1⟩ ∧ node.isEnd = true) ∨
            EndsAt words suffix (i + 1) scope := by
        intro scope
        constructor
        · rintro ⟨stop, word, mem, ends, start⟩
          rcases (suffix_iff_falls longest (spelled.keywords word mem)).mp ends with rfl | later
          · left
            refine ⟨?_, spells.isEnd.mpr mem⟩
            rw [spells.depth]
            cases scope
            simp_all
          · exact Or.inr ⟨stop, word, mem, later, start⟩
        · rintro (⟨rfl, isEnd⟩ | ⟨stop, word, mem, ends, start⟩)
          · exact ⟨rfl, _, spells.isEnd.mp isEnd, suffix_refl _, by rw [spells.depth]⟩
          · exact ⟨stop, word, mem,
              (suffix_iff_falls longest (spelled.keywords word mem)).mpr (Or.inr ends), start⟩
      obtain ⟨new, loop, distinct, exactly⟩ := ih
        (if node.isEnd then scopes ++ [⟨i + 1 - node.depth, i + 1⟩] else scopes) at_f (by omega)
        (by omega)
      have unfolds : trie.report i (turns + 1) child scopes = trie.report i turns f
          (if node.isEnd then scopes ++ [⟨i + 1 - node.depth, i + 1⟩] else scopes) := by
        simp [report, notRoot, deref_of_read stored, link, bind, Except.bind]
      rw [unfolds, loop]
      cases isEnd : node.isEnd with
      | false => exact ⟨new, by simp, distinct, fun scope => by simp [splits, exactly, isEnd]⟩
      | true =>
        refine ⟨⟨i + 1 - node.depth, i + 1⟩ :: new, by simp, ?_, ?_⟩
        · refine nodup_cons.mpr ⟨?_, distinct⟩
          intro mem
          obtain ⟨_, word, _, ends, start⟩ := (exactly _).mp mem
          have := ends.length_le
          have := spells.depth
          simp only at start
          omega
        · intro scope
          simp [splits, exactly, isEnd]

/-- The loop over the text, from what has been read. -/
theorem findLoop_spec (nonempty : [] ∉ words) (chars : List Nat) :
    ∀ {text : List Nat} {cur : Nat} {label : List Nat} {scopes : List Scope},
    labels[cur]? = some label → Longest (· ∈ labels) text label → scopes.Nodup →
    (∀ scope, scope ∈ scopes ↔ Occurs words text scope) →
    ∃ all, trie.findLoop text.length cur scopes chars = .ok all ∧ all.Nodup ∧
      ∀ scope, scope ∈ all ↔ Occurs words (text ++ chars) scope := by
  induction chars with
  | nil =>
    intro text cur label scopes _ _ distinct exactly
    exact ⟨scopes, rfl, distinct, by simpa using exactly⟩
  | cons char chars ih =>
    intro text cur label scopes at_cur longest distinct exactly
    obtain ⟨next, child, suffix, step, at_next, further, which⟩ :=
      advance_spec built at_cur longest char
    have read : (text ++ [char]).length = text.length + 1 := by simp
    have whole : text ++ char :: chars = text ++ [char] ++ chars := by simp
    have ends : ∀ scope, EndsAt words (text ++ [char]) (text.length + 1) scope ↔
        EndsAt words suffix (text.length + 1) scope := by
      intro scope
      refine and_congr_right fun _ => exists_congr fun word => and_congr_right fun mem => ?_
      rw [further.suffix_iff (built.spelled.keywords word mem)]
    rw [whole, findLoop, step]
    rcases which with rfl | ⟨rfl, rfl⟩
    · have length := further.suffix.length_le
      have bound := built.spelled.length_lt_size at_next
      obtain ⟨new, reported, fresh, reports⟩ :=
        report_spec built nonempty (trie.size + 1) scopes at_next (by omega) (read ▸ length)
      simp only [bind, Except.bind, reported, ← read]
      refine ih at_next further ?_ ?_
      · refine nodup_append.mpr ⟨distinct, fresh, ?_⟩
        rintro scope old other new rfl
        have before := ((exactly scope).mp old).2.1
        have after := ((reports scope).mp new).1
        omega
      · intro scope
        rw [mem_append, exactly, reports, occurs_concat, ends]
    · simp only [bind, Except.bind, ← read]
      refine ih at_next further distinct ?_
      intro scope
      rw [exactly, occurs_concat, ends]
      simp [EndsAt, nonempty]

theorem find_spec (nonempty : [] ∉ words) (text : List Nat) :
    ∃ scopes, trie.find text = .ok scopes ∧ scopes.Nodup ∧
      ∀ scope, scope ∈ scopes ↔ Occurs words text scope := by
  have nothing : ∀ scope, scope ∈ ([] : List Scope) ↔ Occurs words [] scope := by
    intro scope
    simp [Occurs, nonempty]
  exact findLoop_spec built nonempty text built.spelled.root (Longest.refl built.spelled.nil_mem)
    nodup_nil nothing

end

theorem rootless_modify {heap : Trie} {p : Nat} {change : Node → Node}
    (keeps : ∀ node, (change node).fail = node.fail)
    (rootless : ∀ node, heap.read root = some node → node.fail = none) :
    ∀ node, (Heap.modify heap p change).read root = some node → node.fail = none := by
  intro node stored
  rw [Heap.read_modify] at stored
  split at stored
  · obtain ⟨old, oldStored, rfl⟩ := Option.map_eq_some_iff.mp stored
    exact (keeps old).trans (rootless old oldStored)
  · exact rootless node stored

/-- The root gets no fail link while words are added. -/
theorem addChars_rootless (chars : List Nat) : ∀ (trie : Trie) (nd i : Nat), 0 < trie.size →
    (∀ node, trie.read root = some node → node.fail = none) →
    ∀ node, (trie.addChars nd i chars).1.read root = some node → node.fail = none := by
  induction chars with
  | nil => exact fun trie nd i _ rootless => rootless
  | cons char chars ih =>
    intro trie nd i filled rootless
    rw [addChars]
    split
    · exact ih _ _ _ filled rootless
    · refine ih _ _ _ (by simp [grow]) ?_
      refine rootless_modify ?_ ?_
      · exact fun _ => rfl
      · intro node stored
        exact rootless node ((Heap.read_alloc_old trie _ filled).symm.trans stored)

theorem linking_addRunes (linking : Linking trie labels words) (word : List Nat)
    (nonempty : word ≠ []) : ∃ more, Linking (trie.addRunes word) more (word :: words) := by
  obtain ⟨more, spelled⟩ := spelled_addRunes linking.spelled word nonempty
  have filled := Nat.zero_lt_of_lt (linking.spelled.length_lt_size linking.spelled.root)
  have rootless := addChars_rootless word trie root 0 filled linking.rootless
  refine ⟨more, spelled, ?_⟩
  rw [addRunes, if_neg (by simp [nonempty])]
  refine rootless_modify ?_ rootless
  exact fun _ => rfl

theorem linking_new : Linking new [[]] [] := by
  refine ⟨spelled_new, ?_⟩
  rintro node stored
  cases stored
  rfl

/-- All the words are added, in any order of them. -/
theorem linking_add (added : List Str) : ∀ {trie : Trie} {labels words : List (List Nat)},
    (∀ word ∈ added, word ≠ []) → Linking trie labels words →
    ∃ more all, Linking (added.foldl add trie) more all ∧
      ∀ word, word ∈ all ↔ word ∈ words ∨ word ∈ added.map Utf8.runes := by
  induction added with
  | nil =>
    intro trie labels words _ linking
    exact ⟨labels, words, linking, by simp⟩
  | cons first added ih =>
    intro trie labels words nonempty linking
    have filled : Utf8.runes first ≠ [] :=
      Utf8.runes_ne_nil (nonempty first mem_cons_self)
    obtain ⟨more, next⟩ := linking_addRunes linking (Utf8.runes first) filled
    obtain ⟨final, all, done, mem⟩ := ih
      (fun word later => nonempty word (mem_cons_of_mem _ later)) next
    refine ⟨final, all, done, ?_⟩
    intro word
    rw [mem]
    simp only [mem_cons, map_cons]
    tauto

/-- The trie of the words is built, whatever the order of the loops over its maps. -/
theorem built_of_words (words : List Str) (nonempty : ∀ word ∈ words, word ≠ [])
    (orders : Nat → GoMap.RangeOrder Nat Nat) :
    ∃ trie labels all, (words.foldl add new).build orders = .ok trie ∧ Built trie labels all ∧
      [] ∉ all ∧ ∀ word, word ∈ all ↔ word ∈ words.map Utf8.runes := by
  obtain ⟨labels, all, linking, mem⟩ := linking_add words nonempty linking_new
  obtain ⟨trie, done, built⟩ := build_spec linking orders
  simp only [not_mem_nil, false_or] at mem
  refine ⟨trie, labels, all, done, built, ?_, mem⟩
  intro empty
  obtain ⟨word, member, same⟩ := mem_map.mp ((mem []).mp empty)
  exact Utf8.runes_ne_nil (nonempty word member) same

/-- The built trie finds every occurrence of a word once and nothing else. -/
theorem find_exact (words : List Str) (nonempty : ∀ word ∈ words, word ≠ [])
    (orders : Nat → GoMap.RangeOrder Nat Nat) (text : List Nat) :
    ∃ trie scopes, (words.foldl add new).build orders = .ok trie ∧ trie.find text = .ok scopes ∧
      scopes.Nodup ∧
      ∀ scope, scope ∈ scopes ↔ Occurs (words.map Utf8.runes) text scope := by
  obtain ⟨trie, labels, all, done, built, filled, mem⟩ := built_of_words words nonempty orders
  obtain ⟨scopes, result, distinct, exactly⟩ := find_spec built filled text
  refine ⟨trie, scopes, done, result, distinct, ?_⟩
  intro scope
  simp only [exactly, Occurs, mem]

theorem find_exact_ushers : ∃ trie scopes,
    ([bytes "he", bytes "she", bytes "hers"].foldl add new).build
      (fun _ => ⟨id, fun _ => .refl _⟩) = .ok trie ∧
    trie.find (Utf8.runes (bytes "ushers")) = .ok scopes ∧
    ⟨1, 4⟩ ∈ scopes ∧ ⟨2, 4⟩ ∈ scopes ∧ ⟨2, 6⟩ ∈ scopes ∧ ⟨0, 2⟩ ∉ scopes := by
  obtain ⟨trie, scopes, built, found, _, exactly⟩ := find_exact
    [bytes "he", bytes "she", bytes "hers"]
    (by simp [bytes]) (fun _ => ⟨id, fun _ => .refl _⟩)
    (Utf8.runes (bytes "ushers"))
  refine ⟨trie, scopes, built, found, ?_, ?_, ?_, ?_⟩
  · exact (exactly _).mpr (by decide)
  · exact (exactly _).mpr (by decide)
  · exact (exactly _).mpr (by decide)
  · exact fun mem => absurd ((exactly _).mp mem) (by decide)

end Trie

end FastGoZero.Stringx
