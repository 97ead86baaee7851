import FastGoZero.Lib.SortSearch
import FastGoZero.Lib.Utf8Text
import FastGoZero.Stringx.Find

/-!
# The replacer

`doReplace` takes all the matches of the trie, sorts them by their start and, for one start, the
longest first, and leaves out those that overlap what was replaced. What it writes is the text of
a scan from left to right that replaces, wherever a key begins, the longest such key.
-/

namespace FastGoZero.Stringx

open Lib List GoMap
open Lib.Str (bytes)

/-- The order of `doReplace` on its scopes. -/
def Scope.less (a b : Scope) : Bool :=
  if a.start < b.start then true else if a.start = b.start then b.stop < a.stop else false

structure Replacer where
  trie : Trie
  mapping : GoMap Str Str

def newReplacer (visit : GoMap.RangeOrder Str Str)
    (orders : Nat → GoMap.RangeOrder Nat Nat) (mapping : GoMap Str Str) :
    Except Fault Replacer := do
  let trie ← (((mapping.range visit).map Prod.fst).foldl Trie.add Trie.new).build orders
  pure ⟨trie, mapping⟩

/-- `chars[start:stop]`. -/
def slice (chars : List Nat) (start stop : Nat) : Except Fault (List Nat) :=
  if start ≤ stop ∧ stop ≤ chars.length then .ok ((chars.take stop).drop start)
  else .error .sliceBounds

open Utf8

namespace Replacer

/-- The loop of `doReplace` over the sorted scopes, with what it writes. -/
def writeScopes (r : Replacer) (chars : List Nat) : Nat → List Scope → Except Fault Str
  | index, [] =>
    if index < chars.length then do
      let rest ← slice chars index chars.length
      pure (encode rest)
    else pure []
  | index, scp :: scopes =>
    if scp.start < index then writeScopes r chars index scopes
    else do
      let before ← slice chars index scp.start
      let key ← slice chars scp.start scp.stop
      let written ← writeScopes r chars scp.stop scopes
      pure (encode before ++ (r.mapping.lookup (encode key)).getD [] ++ written)

def doReplace (r : Replacer) (sorting : SortSearch.SliceSort Scope.less) (text : Str) :
    Except Fault (Str × Bool) := do
  let scopes ← r.trie.find (runes text)
  if scopes.isEmpty then pure (text, false)
  else do
    let written ← r.writeScopes (runes text) 0 (sorting.sort scopes)
    pure (written, true)

def replaceTimes : Nat := 2

/-- The loop of `Replace`. -/
def replaceLoop (r : Replacer) (sorting : SortSearch.SliceSort Scope.less) :
    Nat → Str → Except Fault Str
  | 0, text => pure text
  | times + 1, text => do
    let (text, replaced) ← r.doReplace sorting text
    if replaced then replaceLoop r sorting times text else pure text

def replace (r : Replacer) (sorting : SortSearch.SliceSort Scope.less) (text : Str) :
    Except Fault Str :=
  r.replaceLoop sorting replaceTimes text

end Replacer

/-- A scan of a text from left to right. Where some key begins, the longest such key is replaced
and the scan goes on after it; any other byte is copied. -/
inductive Scan (mapping : GoMap Str Str) : Str → Str → Prop
  | done : Scan mapping [] []
  | copy (first : UInt8) (rest out : Str)
      (absent : ∀ key ∈ mapping, ¬ key <+: first :: rest) (scan : Scan mapping rest out) :
      Scan mapping (first :: rest) (first :: out)
  | swap (key value rest out : Str) (stored : mapping.lookup key = some value)
      (nonempty : key ≠ [])
      (longest : ∀ other ∈ mapping, other <+: key ++ rest → other.length ≤ key.length)
      (scan : Scan mapping rest out) : Scan mapping (key ++ rest) (value ++ out)

variable {mapping : GoMap Str Str}

/-- The keys of a mapping that the replacer is made for. -/
def ValidKeys (mapping : GoMap Str Str) : Prop :=
  ∀ key ∈ mapping, key ≠ [] ∧ Utf8.Valid key

namespace Scan

variable {out text : Str} {chars : List Nat}

theorem inversion (scan : Scan mapping text out) : (text = [] ∧ out = []) ∨
    (∃ first rest written, text = first :: rest ∧ out = first :: written ∧
      (∀ key ∈ mapping, ¬ key <+: first :: rest) ∧ Scan mapping rest written) ∨
    (∃ key value rest written, text = key ++ rest ∧ out = value ++ written ∧
      mapping.lookup key = some value ∧ key ≠ [] ∧
      (∀ other ∈ mapping, other <+: key ++ rest → other.length ≤ key.length) ∧
      Scan mapping rest written) := by
  cases scan with
  | done => exact Or.inl ⟨rfl, rfl⟩
  | copy first rest out absent scan =>
    exact Or.inr (Or.inl ⟨first, rest, out, rfl, rfl, absent, scan⟩)
  | swap key value rest out stored nonempty longest scan =>
    exact Or.inr (Or.inr ⟨key, value, rest, out, rfl, rfl, stored, nonempty, longest, scan⟩)

theorem unique (scan : Scan mapping text out) :
    ∀ {other : Str}, Scan mapping text other → other = out := by
  induction scan with
  | done =>
    intro other second
    rcases second.inversion with
      ⟨_, rfl⟩ | ⟨_, _, _, same, _⟩ | ⟨key, _, _, _, same, _, _, filled, _⟩
    · rfl
    · simp at same
    · exact absurd (append_eq_nil_iff.mp same.symm).1 filled
  | copy first rest out absent _ ih =>
    intro other second
    rcases second.inversion with
      ⟨same, _⟩ | ⟨_, _, written, same, rfl, _, scan⟩ | ⟨key, value, tail, _, same, _, stored, _⟩
    · simp at same
    · obtain ⟨rfl, rfl⟩ := cons.inj same
      rw [ih scan]
    · have mem : key ∈ mapping := (mem_iff_lookup _ _).mpr ⟨value, stored⟩
      exact absurd ⟨tail, same.symm⟩ (absent key mem)
  | swap key value rest out stored nonempty longest _ ih =>
    intro other second
    have mem : key ∈ mapping := (mem_iff_lookup _ _).mpr ⟨value, stored⟩
    rcases second.inversion with ⟨same, _⟩ | ⟨_, _, _, same, _, absent, _⟩ |
      ⟨key', value', tail, written, same, rfl, stored', _, longest', scan⟩
    · exact absurd (append_eq_nil_iff.mp same).1 nonempty
    · exact absurd ⟨rest, same⟩ (absent key mem)
    · have mem' : key' ∈ mapping := (mem_iff_lookup _ _).mpr ⟨value', stored'⟩
      have shorter := longest key' mem' ⟨tail, same.symm⟩
      have longer := longest' key mem ⟨rest, same⟩
      obtain ⟨rfl, rfl⟩ := append_inj same (Nat.le_antisymm longer shorter)
      cases stored.symm.trans stored'
      rw [ih scan]

theorem copy_continuations (valid : ValidKeys mapping) (inside : Str) {rest : Str}
    (continues : ∀ b ∈ inside, isContinuation b = true) (scan : Scan mapping rest out) :
    Scan mapping (inside ++ rest) (inside ++ out) := by
  induction inside with
  | nil => exact scan
  | cons b inside ih =>
    refine copy b _ _ ?_ (ih fun c mem => continues c (mem_cons_of_mem _ mem))
    rintro key mem ⟨tail, same⟩
    obtain ⟨nonempty, validKey⟩ := valid key mem
    obtain ⟨first, after, rfl⟩ := exists_cons_of_ne_nil nonempty
    obtain rfl : first = b := (cons.inj same).1
    exact absurd validKey.starts (by simp [continues first mem_cons_self])

theorem copy_rune (valid : ValidKeys mapping) {r : Nat}
    (scalars : ∀ c ∈ r :: chars, isScalar c = true)
    (absent : ∀ key ∈ mapping, ¬ runes key <+: r :: chars)
    (scan : Scan mapping (encode chars) out) :
    Scan mapping (encode (r :: chars)) (encodeRune r ++ out) := by
  obtain ⟨first, inside, encoded⟩ := encoded_of_isScalar (scalars r mem_cons_self)
  have noKey : ∀ key ∈ mapping, ¬ key <+: encode (r :: chars) :=
    fun key mem begins => absent key mem (((valid key mem).2.runes_prefix_iff scalars).mp begins)
  rw [encode_cons, encoded.bytes, cons_append] at noKey ⊢
  exact copy first _ _ noKey (copy_continuations valid inside encoded.continues scan)

/-- A stretch of runes where no key begins is copied. -/
theorem copy_stretch (valid : ValidKeys mapping) (front : List Nat)
    (scalars : ∀ c ∈ front ++ chars, isScalar c = true)
    (absent : ∀ key ∈ mapping, ∀ past left, front = past ++ left → left ≠ [] →
      ¬ runes key <+: left ++ chars) (scan : Scan mapping (encode chars) out) :
    Scan mapping (encode (front ++ chars)) (encode front ++ out) := by
  induction front with
  | nil => exact scan
  | cons r front ih =>
    rw [encode_cons, append_assoc]
    refine copy_rune valid scalars (fun key mem => absent key mem [] (r :: front) rfl (by simp))
      (ih ?_ ?_)
    · exact fun c mem => scalars c (mem_cons_of_mem _ mem)
    · intro key mem past left whole nonempty
      exact absent key mem (r :: past) left (by rw [whole, cons_append]) nonempty

end Scan

theorem Scope.less_eq_false {a b : Scope} : Scope.less b a = false ↔
    a.start < b.start ∨ (a.start = b.start ∧ b.stop ≤ a.stop) := by
  unfold Scope.less
  split
  · simp
    omega
  split
  · simp
    omega
  · simp
    omega

variable {chars : List Nat} {start index : Nat} {words : List (List Nat)} {scope : Scope}
  {out : Str}

theorem slice_eq {stop : Nat} (ordered : start ≤ stop)
    (within : stop ≤ chars.length) : slice chars start stop = .ok ((chars.take stop).drop start) :=
  if_pos ⟨ordered, within⟩

theorem occurs_of_front {word : List Nat}
    (within : start ≤ chars.length) (mem : word ∈ words) (begins : word <+: chars.drop start) :
    Occurs words chars ⟨start, start + word.length⟩ := by
  have length := begins.length_le
  rw [length_drop] at length
  have same : (chars.take (start + word.length)).drop start = word := by
    rw [← take_drop, ← prefix_iff_eq_take.mp begins]
  refine ⟨Nat.le_add_right _ _, Nat.add_le_of_le_sub' within length, ?_⟩
  rwa [same]

theorem between_append {stop : Nat} (ordered : start ≤ stop) (within : stop ≤ chars.length) :
    (chars.take stop).drop start ++ chars.drop stop = chars.drop start := by
  have length : start ≤ (chars.take stop).length := by
    rw [length_take]
    omega
  rw [← drop_append_of_le_length length, take_append_drop]

/-- The runes of the keys. -/
def KeysOf (mapping : GoMap Str Str) (words : List (List Nat)) : Prop :=
  ∀ word, word ∈ words ↔ ∃ key ∈ mapping, runes key = word

theorem Occurs.nonempty
    (occurs : Occurs words chars scope) (filled : [] ∉ words) : scope.start < scope.stop := by
  rcases Nat.lt_or_ge scope.start scope.stop with less | reached
  · exact less
  · have mem := occurs.2.2
    rw [drop_eq_nil_of_le (by rw [length_take]; omega)] at mem
    exact absurd mem filled

section

variable (valid : ValidKeys mapping) (keys : KeysOf mapping words)
  (scalars : ∀ c ∈ chars, isScalar c = true)

include valid keys scalars

/-- The runes between two positions are copied when no word begins there. -/
theorem Scan.copy_between (ordered : index ≤ start) (within : start ≤ chars.length)
    (absent : ∀ scope, Occurs words chars scope → index ≤ scope.start → start ≤ scope.start)
    (scan : Scan mapping (encode (chars.drop start)) out) :
    Scan mapping (encode (chars.drop index))
      (encode ((chars.take start).drop index) ++ out) := by
  have whole := between_append ordered within
  rw [← whole]
  refine copy_stretch valid _ ?_ ?_ scan
  · rw [whole]
    exact fun c mem => scalars c (mem_of_mem_drop mem)
  · intro key mem past left split nonempty begins
    have size := congrArg length split
    rw [length_append, length_drop, length_take, Nat.min_eq_left within] at size
    have positive := length_pos_of_ne_nil nonempty
    have here : left ++ chars.drop start = chars.drop (index + past.length) := by
      rw [← drop_drop, ← whole, split, append_assoc, drop_left]
    rw [here] at begins
    have isWord := (keys _).mpr ⟨key, mem, rfl⟩
    have later := absent _ (occurs_of_front (by omega) isWord begins) (Nat.le_add_right _ _)
    simp only at later
    omega

/-- The rest is copied when no word occurs any more. -/
theorem Scan.copy_rest (within : index ≤ chars.length)
    (absent : ∀ scope, Occurs words chars scope → ¬ index ≤ scope.start) :
    Scan mapping (encode (chars.drop index)) (encode (chars.drop index)) := by
  have ended : Scan mapping (encode (chars.drop chars.length)) [] := by
    rw [drop_length]
    exact done
  have copied := copy_between valid keys scalars within (Nat.le_refl _)
    (fun scope occurs later => absurd later (absent scope occurs)) ended
  rwa [append_nil, take_length] at copied

/-- The key of an occurrence that comes first, replaced. -/
theorem Scan.swap_scope (occurs : Occurs words chars scope)
    (longest : ∀ other, Occurs words chars other → other.start = scope.start →
      other.stop ≤ scope.stop) (scan : Scan mapping (encode (chars.drop scope.stop)) out) :
    Scan mapping (encode (chars.drop scope.start))
      ((mapping.lookup (encode ((chars.take scope.stop).drop scope.start))).getD [] ++
        out) := by
  obtain ⟨key, mem, same⟩ := (keys _).mp occurs.2.2
  obtain ⟨value, stored⟩ := (mem_iff_lookup _ _).mp mem
  have encoded : encode ((chars.take scope.stop).drop scope.start) = key := by
    rw [← same, (valid key mem).2.encode_runes]
  have between := between_append occurs.1 occurs.2.1
  have scalarsHere : ∀ c ∈ chars.drop scope.start, isScalar c = true :=
    fun c member => scalars c (mem_of_mem_drop member)
  have whole : encode (chars.drop scope.start) =
      key ++ encode (chars.drop scope.stop) := by
    rw [← between, encode_append, encoded]
  rw [whole, encoded, stored, Option.getD_some]
  refine swap key value _ out stored (valid key mem).1 ?_ scan
  intro other member begins
  have validOther := (valid other member).2
  rw [← whole, validOther.runes_prefix_iff scalarsHere] at begins
  have isWord := (keys _).mpr ⟨other, member, rfl⟩
  have within : scope.start ≤ chars.length := Nat.le_trans occurs.1 occurs.2.1
  have shorter := longest _ (occurs_of_front within isWord begins) rfl
  -- both words begin here, so the shorter one is the front of the longer one
  have keyBegins : runes key <+: chars.drop scope.start := ⟨_, same ▸ between⟩
  have lengths : (runes other).length ≤ (runes key).length := by
    rw [same, length_drop, length_take, Nat.min_eq_left occurs.2.1]
    simp only at shorter
    omega
  obtain ⟨tail, longer⟩ := prefix_of_prefix_length_le begins keyBegins lengths
  rw [← (valid key mem).2.encode_runes, ← longer, encode_append, validOther.encode_runes,
    length_append]
  exact Nat.le_add_right _ _

end

/-- The loop writes the scan of the rest, when the scopes that are left are all the occurrences
from the position on, in order. -/
theorem Replacer.writeScopes_scan (r : Replacer)
    (valid : ValidKeys r.mapping) (keys : KeysOf r.mapping words) (filled : [] ∉ words)
    (scalars : ∀ c ∈ chars, isScalar c = true) (scopes : List Scope) :
    ∀ index, index ≤ chars.length → scopes.Pairwise (fun a b => Scope.less b a = false) →
    (∀ scope ∈ scopes, Occurs words chars scope) →
    (∀ scope, Occurs words chars scope → index ≤ scope.start → scope ∈ scopes) →
    ∃ out, r.writeScopes chars index scopes = .ok out ∧
      Scan r.mapping (encode (chars.drop index)) out := by
  induction scopes with
  | nil =>
    intro index within _ _ all
    refine ⟨_, ?_, Scan.copy_rest valid keys scalars within fun scope occurs later =>
      absurd (all scope occurs later) (by simp)⟩
    rw [writeScopes]
    split
    · rw [slice_eq within (Nat.le_refl _), take_length]
      rfl
    · rw [drop_eq_nil_of_le (by omega)]
      rfl
  | cons scp scopes ih =>
    intro index within sorted occur all
    obtain ⟨first, sortedRest⟩ := pairwise_cons.mp sorted
    have occurs := occur scp mem_cons_self
    have occurRest : ∀ scope ∈ scopes, Occurs words chars scope :=
      fun scope mem => occur scope (mem_cons_of_mem _ mem)
    have before : ∀ scope, Occurs words chars scope → index ≤ scope.start →
        scope = scp ∨ scp.start < scope.start ∨
          (scp.start = scope.start ∧ scope.stop ≤ scp.stop) := by
      intro scope here later
      rcases mem_cons.mp (all scope here later) with same | mem
      · exact Or.inl same
      · exact Or.inr (Scope.less_eq_false.mp (first scope mem))
    rw [writeScopes]
    split
    · refine ih index within sortedRest occurRest ?_
      intro scope here later
      rcases mem_cons.mp (all scope here later) with rfl | mem
      · omega
      · exact mem
    · rename_i reached
      have reached := Nat.le_of_not_lt reached
      have positive := occurs.nonempty filled
      obtain ⟨out, written, scan⟩ := ih scp.stop occurs.2.1 sortedRest occurRest
        (by
          intro scope here later
          rcases mem_cons.mp (all scope here (by omega)) with rfl | mem
          · omega
          · exact mem)
      have swapped := Scan.swap_scope valid keys scalars occurs
        (by
          intro other here same
          rcases before other here (by omega) with rfl | later | ⟨_, shorter⟩
          · exact Nat.le_refl _
          · omega
          · exact shorter) scan
      have copied := Scan.copy_between valid keys scalars reached
        (Nat.le_trans occurs.1 occurs.2.1)
        (by
          intro scope here later
          rcases before scope here later with rfl | after | ⟨same, _⟩
          · exact Nat.le_refl _
          · omega
          · omega) swapped
      refine ⟨_, ?_, copied⟩
      rw [slice_eq reached (Nat.le_trans occurs.1 occurs.2.1), slice_eq occurs.1 occurs.2.1,
        written]
      simp [bind, Except.bind, pure, Except.pure]

theorem doReplace_scan (mapping : GoMap Str Str) (valid : ValidKeys mapping)
    (text : Str) (validText : Utf8.Valid text)
    (visit : GoMap.RangeOrder Str Str) (orders : Nat → GoMap.RangeOrder Nat Nat)
    (sorting : SortSearch.SliceSort Scope.less) :
    ∃ r out replaced, newReplacer visit orders mapping = .ok r ∧
      r.doReplace sorting text = .ok (out, replaced) ∧
      ∀ result, Scan mapping text result ↔ result = out := by
  have memKeys : ∀ key, key ∈ (mapping.range visit).map Prod.fst ↔ key ∈ mapping := by
    intro key
    rw [mem_iff_lookup, mem_map]
    constructor
    · rintro ⟨⟨k, value⟩, mem, rfl⟩
      exact ⟨value, (mem_range _ _ _ _).mp mem⟩
    · rintro ⟨value, stored⟩
      exact ⟨(key, value), (mem_range _ _ _ _).mpr stored, rfl⟩
  obtain ⟨trie, labels, all, done, built, filled, mem⟩ := Trie.built_of_words
    ((mapping.range visit).map Prod.fst) (fun key member => (valid key ((memKeys key).mp member)).1)
    orders
  have keys : KeysOf mapping all := by
    intro word
    rw [mem, mem_map]
    simp only [memKeys]
  obtain ⟨scopes, found, _, exactly⟩ := Trie.find_spec built filled (runes text)
  have one : ∀ {out}, Scan mapping text out → ∀ result, Scan mapping text result ↔ result = out :=
    fun scan result => ⟨fun second => scan.unique second, fun same => same ▸ scan⟩
  have made : newReplacer visit orders mapping = .ok ⟨trie, mapping⟩ := by
    simp [newReplacer, done, bind, Except.bind, pure, Except.pure]
  cases empty : scopes.isEmpty with
  | false =>
    obtain ⟨out, written, scan⟩ := Replacer.writeScopes_scan ⟨trie, mapping⟩ valid keys filled
      validText.isScalar (sorting.sort scopes) 0 (Nat.zero_le _) (sorting.sorted scopes)
      (fun scope member => (exactly scope).mp ((sorting.perm scopes).mem_iff.mp member))
      (fun scope occurs _ => (sorting.perm scopes).mem_iff.mpr ((exactly scope).mpr occurs))
    rw [drop_zero, validText.encode_runes] at scan
    refine ⟨⟨trie, mapping⟩, out, true, made, ?_, one scan⟩
    simp [Replacer.doReplace, found, empty, written, bind, Except.bind, pure, Except.pure]
  | true =>
    have copied := Scan.copy_rest valid keys validText.isScalar (Nat.zero_le _)
      (fun scope occurs _ => by simpa [isEmpty_iff.mp empty] using (exactly scope).mpr occurs)
    rw [drop_zero, validText.encode_runes] at copied
    refine ⟨⟨trie, mapping⟩, text, false, made, ?_, one copied⟩
    simp [Replacer.doReplace, found, empty, bind, Except.bind, pure, Except.pure]

/-- A sorting algorithm. -/
def sortScopes : SortSearch.SliceSort Scope.less where
  sort scopes := scopes.mergeSort fun a b => !Scope.less b a
  perm scopes := mergeSort_perm _ _
  sorted scopes := by
    have sorted := @pairwise_mergeSort _ (fun a b => !Scope.less b a)
      (by
        intro a b c
        simp only [Bool.not_eq_true', Scope.less_eq_false]
        omega)
      (by
        intro a b
        simp only [Bool.or_eq_true, Bool.not_eq_true', Scope.less_eq_false]
        omega) scopes
    exact sorted.imp fun le => by simpa using le

/-- Two keys, one the beginning of the other. -/
def overlapping : GoMap Str Str :=
  ((∅ : GoMap Str Str).insert (bytes "ab") (bytes "X")).insert
    (bytes "abc") (bytes "Y")

theorem doReplace_scan_overlapping : ∃ r replaced,
    newReplacer ⟨id, fun _ => .refl _⟩ (fun _ => ⟨id, fun _ => .refl _⟩) overlapping = .ok r ∧
      r.doReplace sortScopes (bytes "abcab") = .ok (bytes "YX", replaced) := by
  have mem : ∀ key, key ∈ overlapping ↔ key = bytes "abc" ∨ key = bytes "ab" := by
    intro key
    simp only [overlapping, AList.mem_insert, AList.notMem_empty, or_false]
  have valid : ValidKeys overlapping := by
    intro key member
    rcases (mem key).mp member with rfl | rfl
    · exact ⟨by decide, [97, 98, 99], by decide, by decide⟩
    · exact ⟨by decide, [97, 98], by decide, by decide⟩
  have scan : Scan overlapping (bytes "abcab") (bytes "YX") := by
    refine Scan.swap (bytes "abc") (bytes "Y") (bytes "ab") (bytes "X") rfl (by decide) ?_
      (Scan.swap (bytes "ab") (bytes "X") [] [] rfl (by decide) ?_ Scan.done)
    · intro other member _
      rcases (mem other).mp member with rfl | rfl <;> decide
    · intro other member begins
      exact begins.length_le
  obtain ⟨r, out, replaced, made, done, exactly⟩ := doReplace_scan overlapping valid
    (bytes "abcab") ⟨[97, 98, 99, 97, 98], by decide, by decide⟩ ⟨id, fun _ => .refl _⟩
    (fun _ => ⟨id, fun _ => .refl _⟩) sortScopes
  exact ⟨r, replaced, made, (exactly _).mp scan ▸ done⟩

end FastGoZero.Stringx
