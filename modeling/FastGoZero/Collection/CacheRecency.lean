import FastGoZero.Collection.Cache
import FastGoZero.Lib.Recency

/-!
# Consistency of a cache with a limit

The list of keys, the map of its elements and the map of the values have the same keys at all
times, each once, and never more than the limit. The list is in the order of the last use, so a
store that goes beyond the limit removes the key that was not stored or read for the longest time.
-/

namespace FastGoZero.Collection

open Lib List

universe u v
variable {K : Type u} {V : Type v} [DecidableEq K]

namespace KeyLru

/-- The keys of the list, the last one used first. -/
def keys (klru : KeyLru K) : List K := klru.evicts.map Element.value

/-- The map leads each key to its one element of the list. -/
structure Linked (klru : KeyLru K) : Prop where
  elements_iff : ∀ key e, klru.elements.lookup key = some e ↔ e ∈ klru.evicts ∧ e.value = key
  distinct : (klru.evicts.map Element.id).Nodup
  fresh : ∀ e ∈ klru.evicts, e.id < klru.nextId

theorem length_pushFront (klru : KeyLru K) (key : K) :
    (klru.pushFront key).evicts.length = klru.keys.length + 1 := by
  rw [keys, length_map]
  rfl

theorem linked_newKeyLru (limit : Nat) : (newKeyLru limit : KeyLru K).Linked where
  elements_iff key e := by simp [newKeyLru]
  distinct := nodup_nil
  fresh := by simp [newKeyLru]

namespace Linked

variable {klru : KeyLru K} (linked : klru.Linked) {e e' : Element K} {key : K}

include linked

theorem eq_of_value (mem : e ∈ klru.evicts) (mem' : e' ∈ klru.evicts)
    (same : e.value = e'.value) : e = e' := by
  have first := (linked.elements_iff e'.value e).mpr ⟨mem, same⟩
  have second := (linked.elements_iff e'.value e').mpr ⟨mem', rfl⟩
  exact Option.some.inj (first.symm.trans second)

theorem id_eq_iff (mem : e ∈ klru.evicts) (mem' : e' ∈ klru.evicts) :
    e.id = e'.id ↔ e.value = e'.value := by
  constructor
  · intro same
    rw [inj_on_of_nodup_map linked.distinct mem mem' same]
  · intro same
    rw [linked.eq_of_value mem mem' same]

theorem nodup_keys : klru.keys.Nodup :=
  linked.distinct.of_map.map_on fun _ mem _ mem' same => linked.eq_of_value mem mem' same

theorem lookup_of_mem (mem : key ∈ klru.keys) :
    ∃ e, klru.elements.lookup key = some e ∧ e ∈ klru.evicts ∧ e.value = key := by
  obtain ⟨e, among, rfl⟩ := mem_map.mp mem
  exact ⟨e, (linked.elements_iff _ e).mpr ⟨among, rfl⟩, among, rfl⟩

theorem lookup_eq_none (absent : key ∉ klru.keys) : klru.elements.lookup key = none := by
  cases found : klru.elements.lookup key with
  | none => rfl
  | some e =>
    obtain ⟨mem, rfl⟩ := (linked.elements_iff key e).mp found
    exact absurd (mem_map_of_mem mem) absent

theorem mem_elements : key ∈ klru.elements ↔ key ∈ klru.keys := by
  rw [GoMap.mem_iff_lookup]
  constructor
  · rintro ⟨e, found⟩
    obtain ⟨mem, rfl⟩ := (linked.elements_iff key e).mp found
    exact mem_map_of_mem mem
  · intro mem
    obtain ⟨e, found, -, -⟩ := linked.lookup_of_mem mem
    exact ⟨e, found⟩

/-- Taking an element out of the list takes its key out of the keys. -/
theorem keys_filter (mem : e ∈ klru.evicts) :
    (klru.evicts.filter fun other => other.id != e.id).map Element.value =
      klru.keys.erase e.value := by
  rw [linked.nodup_keys.erase_eq_filter, keys, filter_map]
  congr 1
  apply filter_congr
  intro other among
  rw [Function.comp_apply, Bool.eq_iff_iff, bne_iff_ne, bne_iff_ne, not_iff_not]
  exact linked.id_eq_iff among mem

theorem mem_filter {other : Element K} (mem : e ∈ klru.evicts) :
    other ∈ klru.evicts.filter (fun other => other.id != e.id) ↔
      other ∈ klru.evicts ∧ other.value ≠ e.value := by
  rw [List.mem_filter, bne_iff_ne]
  exact and_congr_right fun among => not_congr (linked.id_eq_iff among mem)

theorem unlink (mem : e ∈ klru.evicts) :
    (klru.unlink e).Linked ∧ (klru.unlink e).keys = klru.keys.erase e.value := by
  refine ⟨⟨?_, ?_, ?_⟩, linked.keys_filter mem⟩
  · intro key other
    change (klru.elements.erase e.value).lookup key = some other ↔
      other ∈ klru.evicts.filter (fun other => other.id != e.id) ∧ other.value = key
    rw [GoMap.lookup_erase_if, linked.mem_filter mem]
    by_cases removed : key = e.value
    · rw [if_pos removed, removed]
      simp
    · rw [if_neg removed, linked.elements_iff]
      constructor
      · rintro ⟨among, rfl⟩
        exact ⟨⟨among, removed⟩, rfl⟩
      · rintro ⟨⟨among, -⟩, same⟩
        exact ⟨among, same⟩
  · exact linked.distinct.sublist (filter_sublist.map _)
  · intro other among
    exact linked.fresh other (mem_of_mem_filter among)

theorem moveToFront (mem : e ∈ klru.evicts) : (klru.moveToFront e).Linked ∧
      (klru.moveToFront e).keys = e.value :: klru.keys.erase e.value := by
  have among (other : Element K) :
      other ∈ e :: klru.evicts.filter (fun other => other.id != e.id) ↔
        other ∈ klru.evicts := by
    rw [mem_cons, linked.mem_filter mem]
    constructor
    · rintro (rfl | ⟨kept, -⟩)
      · exact mem
      · exact kept
    · intro kept
      by_cases same : other.value = e.value
      · exact Or.inl (linked.eq_of_value kept mem same)
      · exact Or.inr ⟨kept, same⟩
  refine ⟨⟨?_, ?_, ?_⟩, congrArg (e.value :: ·) (linked.keys_filter mem)⟩
  · intro key other
    rw [KeyLru.moveToFront, among]
    exact linked.elements_iff key other
  · refine nodup_cons.mpr ⟨?_, linked.distinct.sublist (filter_sublist.map _)⟩
    intro again
    obtain ⟨other, kept, same⟩ := List.mem_map.mp again
    exact (bne_iff_ne.mp (List.mem_filter.mp kept).2) same
  · intro other kept
    exact linked.fresh other ((among other).mp kept)

theorem pushFront (absent : key ∉ klru.keys) :
    (klru.pushFront key).Linked ∧ (klru.pushFront key).keys = key :: klru.keys := by
  refine ⟨⟨?_, ?_, ?_⟩, rfl⟩
  · intro probe e
    change (klru.elements.insert key ⟨klru.nextId, key⟩).lookup probe = some e ↔
      e ∈ (⟨klru.nextId, key⟩ : Element K) :: klru.evicts ∧ e.value = probe
    rw [GoMap.lookup_insert_if, mem_cons]
    by_cases new : probe = key
    · subst new
      rw [if_pos rfl]
      constructor
      · intro same
        rw [← Option.some.inj same]
        exact ⟨Or.inl rfl, rfl⟩
      · rintro ⟨rfl | old, same⟩
        · rfl
        · exact absurd (same ▸ mem_map_of_mem old) absent
    · rw [if_neg new, linked.elements_iff]
      constructor
      · rintro ⟨old, same⟩
        exact ⟨Or.inr old, same⟩
      · rintro ⟨rfl | old, same⟩
        · exact absurd same.symm new
        · exact ⟨old, same⟩
  · refine nodup_cons.mpr ⟨?_, linked.distinct⟩
    intro again
    obtain ⟨other, kept, same⟩ := mem_map.mp again
    exact Nat.lt_irrefl _ (same ▸ linked.fresh other kept)
  · intro other kept
    rcases mem_cons.mp kept with rfl | old
    · exact Nat.lt_succ_self _
    · exact Nat.lt_succ_of_lt (linked.fresh other old)

end Linked

end KeyLru

/-- The maps and the list have the same keys, which are in the order of their last use. -/
structure Store.Consistent (limit : Nat) (history : List K) (s : Store K V) (klru : KeyLru K) :
    Prop where
  limited : s.lruCache = some klru
  limit_eq : klru.limit = limit
  linked : klru.Linked
  mem_data : ∀ key, key ∈ s.data ↔ key ∈ klru.keys
  length_le : klru.keys.length ≤ limit
  recent : Recent history klru.keys

namespace Store

/-- What becomes of the keys when one is stored or read. -/
inductive Used (limit : Nat) (history : List K) (before after : Store K V) (key : K) : List K → Prop
  | kept (fits : key ∈ before.data ∨ before.data.len < limit)
      (mem_iff : ∀ probe, probe ∈ after.data ↔ probe = key ∨ probe ∈ before.data) :
      Used limit history before after key []
  | evicted (victim : K) (absent : key ∉ before.data) (full : before.data.len = limit)
      (present : victim ∈ before.data) (used : victim ∈ history)
      (mem_iff : ∀ probe,
        probe ∈ after.data ↔ probe = key ∨ (probe ∈ before.data ∧ probe ≠ victim))
      (oldest : ∀ probe, probe ∈ after.data → MoreRecent (key :: history) probe victim) :
      Used limit history before after key [victim]

/-- The store and the evicted keys after one was stored or read. -/
def Updated (limit : Nat) (history : List K) (before : Store K V) (key : K)
    (result : Store K V × List K) : Prop :=
  ∃ klru, result.1.Consistent limit (key :: history) klru ∧
    Used limit history before result.1 key result.2

section

variable {limit : Nat} {history : List K} {s : Store K V} {klru : KeyLru K}
  (consistent : s.Consistent limit history klru)

include consistent

theorem Consistent.len_eq : s.data.len = klru.keys.length := by
  have same : s.data.keys.Perm klru.keys := by
    rw [perm_ext_iff_of_nodup s.data.keys_nodup consistent.linked.nodup_keys]
    intro key
    rw [← consistent.mem_data]
    exact AList.mem_keys
  rw [← same.length_eq, GoMap.len, AList.keys, keys, length_map]

section

variable {key : K} {data : GoMap K V}
  (mem_data : ∀ probe, probe ∈ data ↔ probe = key ∨ probe ∈ s.data)

include mem_data

/-- With room for it, the key comes to the front of the list. -/
theorem Consistent.front {klru' : KeyLru K} (limit_eq : klru'.limit = klru.limit)
    (linked : klru'.Linked) (keys_eq : klru'.keys = key :: klru.keys.erase key)
    (fits : key ∈ klru.keys ∨ klru.keys.length < limit) :
    Updated limit history s key ({ s with data := data, lruCache := some klru' }, []) := by
  refine ⟨klru', ⟨rfl, limit_eq.trans consistent.limit_eq, linked, ?_, ?_, ?_⟩, ?_⟩
  · intro probe
    rw [mem_data, keys_eq, consistent.mem_data, mem_cons]
    by_cases same : probe = key
    · simp [same]
    · simp [same, mem_erase_of_ne same]
  · rw [keys_eq, length_cons]
    rcases fits with present | room
    · rw [length_erase_add_one present]
      exact consistent.length_le
    · exact Nat.lt_of_le_of_lt length_erase_le room
  · rw [keys_eq]
    exact consistent.recent.use key
  · refine .kept (fits.imp (consistent.mem_data key).mpr fun room => ?_) mem_data
    rwa [consistent.len_eq]

theorem Consistent.add_present (present : key ∈ klru.keys) :
    Updated limit history s key (({ s with data := data }).lruAdd key) := by
  obtain ⟨e, found, mem, rfl⟩ := consistent.linked.lookup_of_mem present
  obtain ⟨linked, keys_eq⟩ := consistent.linked.moveToFront mem
  have run : ({ s with data := data }).lruAdd e.value =
      ({ s with data := data, lruCache := some (klru.moveToFront e) }, []) := by
    simp only [lruAdd, consistent.limited, found]
  rw [run]
  exact consistent.front mem_data rfl linked keys_eq (Or.inl present)

theorem Consistent.add_room (absent : key ∉ klru.keys) (room : klru.keys.length < limit) :
    Updated limit history s key (({ s with data := data }).lruAdd key) := by
  obtain ⟨linked, keys_eq⟩ := consistent.linked.pushFront absent
  have fits : ¬ (klru.pushFront key).limit < (klru.pushFront key).evicts.length := by
    have length := klru.length_pushFront key
    have same : (klru.pushFront key).limit = limit := consistent.limit_eq
    omega
  have run : ({ s with data := data }).lruAdd key =
      ({ s with data := data, lruCache := some (klru.pushFront key) }, []) := by
    simp only [lruAdd, consistent.limited, consistent.linked.lookup_eq_none absent, if_neg fits]
  rw [run]
  rw [← erase_of_not_mem absent] at keys_eq
  exact consistent.front mem_data rfl linked keys_eq (Or.inr room)

/-- A new key beyond the limit: the last key of the list goes. -/
theorem Consistent.add_full (positive : 0 < limit) (absent : key ∉ klru.keys)
    (full : klru.keys.length = limit) :
    Updated limit history s key (({ s with data := data }).lruAdd key) := by
  obtain ⟨linked, keys_eq⟩ := consistent.linked.pushFront absent
  have nonempty : klru.evicts ≠ [] := by
    rintro empty
    rw [KeyLru.keys, empty] at full
    exact absurd full (by simp; omega)
  obtain ⟨front, e, evicts_eq⟩ := (eq_nil_or_concat' klru.evicts).resolve_left nonempty
  have mem : e ∈ klru.evicts := by
    rw [evicts_eq]
    simp
  have split : klru.keys = front.map Element.value ++ [e.value] := by
    rw [KeyLru.keys, evicts_eq, map_append, map_singleton]
  have other : e.value ≠ key := by
    rintro rfl
    exact absent (mem_map_of_mem mem)
  have gone : e.value ∉ front.map Element.value := by
    have distinct := consistent.linked.nodup_keys
    rw [split] at distinct
    exact fun again => disjoint_of_nodup_append distinct again (mem_singleton_self _)
  obtain ⟨unlinked, unlinked_keys⟩ := linked.unlink (mem_cons_of_mem _ mem)
  have kept : ((klru.pushFront key).unlink e).keys = key :: front.map Element.value := by
    rw [unlinked_keys, keys_eq, erase_cons_tail (by simpa using other.symm), split,
      erase_append_right _ gone, erase_cons_head, append_nil]
  have overflow : (klru.pushFront key).limit < (klru.pushFront key).evicts.length := by
    have length := klru.length_pushFront key
    have same : (klru.pushFront key).limit = limit := consistent.limit_eq
    omega
  have last : (klru.pushFront key).evicts.getLast? = some e := by
    change (_ :: klru.evicts).getLast? = some e
    rw [evicts_eq, ← cons_append, getLast?_concat]
  have run : ({ s with data := data }).lruAdd key =
      ({ s with data := data.erase e.value, lruCache := some ((klru.pushFront key).unlink e) },
        [e.value]) := by
    simp only [lruAdd, consistent.limited, consistent.linked.lookup_eq_none absent,
      if_pos overflow, removeOldest, last]
    rfl
  have recent : Recent (key :: history) (key :: front.map Element.value ++ [e.value]) := by
    rw [cons_append, ← split, ← erase_of_not_mem absent]
    exact consistent.recent.use key
  have mem_after (probe : K) :
      probe ∈ data.erase e.value ↔ probe = key ∨ (probe ∈ s.data ∧ probe ≠ e.value) := by
    rw [AList.mem_erase, mem_data]
    by_cases same : probe = key
    · simp [same, other.symm]
    · simp [same, and_comm]
  have mem_keys (probe : K) :
      probe ∈ data.erase e.value ↔ probe ∈ ((klru.pushFront key).unlink e).keys := by
    rw [AList.mem_erase, mem_data, unlinked_keys, linked.nodup_keys.mem_erase_iff, keys_eq,
      mem_cons, consistent.mem_data]
  rw [run]
  refine ⟨(klru.pushFront key).unlink e, ⟨rfl, consistent.limit_eq, unlinked, mem_keys, ?_, ?_⟩, ?_⟩
  · rw [kept, length_cons, ← full, split, length_append, length_singleton]
  · rw [kept]
    exact recent.sublist (sublist_append_left _ _)
  · refine .evicted e.value ?_ ?_ ?_ ?_ mem_after ?_
    · rwa [consistent.mem_data]
    · rw [consistent.len_eq, full]
    · rw [consistent.mem_data]
      exact mem_map_of_mem mem
    · exact consistent.recent.used _ (mem_map_of_mem mem)
    · intro probe present
      exact recent.last probe (kept ▸ (mem_keys probe).mp present)

theorem Consistent.add (positive : 0 < limit) :
    Updated limit history s key (({ s with data := data }).lruAdd key) := by
  by_cases present : key ∈ klru.keys
  · exact consistent.add_present mem_data present
  · rcases Nat.lt_or_ge klru.keys.length limit with room | full
    · exact consistent.add_room mem_data present room
    · exact consistent.add_full mem_data positive present
        (Nat.le_antisymm consistent.length_le full)

end

theorem Consistent.setLocked (positive : 0 < limit) (key : K) (value : V) :
    Updated limit history s key (s.setLocked key value).2 :=
  consistent.add (fun _ => AList.mem_insert s.data) positive

/-- A read of a key that is there counts as a use of it. -/
theorem Consistent.doGet_hit (positive : 0 < limit) {key : K} {value : V}
    (found : s.data.lookup key = some value) : Updated limit history s key (s.doGet key).2 := by
  have same : s.doGet key = (some value, s.lruAdd key) := by rw [doGet, found]
  rw [same]
  have mem_data (probe : K) : probe ∈ s.data ↔ probe = key ∨ probe ∈ s.data := by
    constructor
    · exact Or.inr
    · rintro (rfl | old)
      · exact (GoMap.mem_iff_lookup _ _).mpr ⟨value, found⟩
      · exact old
  exact consistent.add mem_data positive

theorem Consistent.delLocked (key : K) :
    ∃ klru', (s.delLocked key).1.Consistent limit history klru' ∧
      ∀ probe, probe ∈ (s.delLocked key).1.data ↔ probe ≠ key ∧ probe ∈ s.data := by
  by_cases present : key ∈ klru.keys
  · obtain ⟨e, found, mem, rfl⟩ := consistent.linked.lookup_of_mem present
    obtain ⟨linked, keys_eq⟩ := consistent.linked.unlink mem
    have run : s.delLocked e.value =
        ({ s with
            data := (s.data.erase e.value).erase e.value
            lruCache := some (klru.unlink e) }, [e.value]) := by
      simp only [Store.delLocked, lruRemove, consistent.limited, found]
      rfl
    have mem_after (probe : K) : probe ∈ (s.data.erase e.value).erase e.value ↔
        probe ≠ e.value ∧ probe ∈ s.data := by
      rw [AList.mem_erase, AList.mem_erase]
      tauto
    rw [run]
    refine ⟨klru.unlink e, ⟨rfl, consistent.limit_eq, linked, ?_, ?_, ?_⟩, mem_after⟩
    · intro probe
      rw [mem_after, keys_eq, consistent.mem_data, consistent.linked.nodup_keys.mem_erase_iff]
    · rw [keys_eq]
      exact Nat.le_trans length_erase_le consistent.length_le
    · rw [keys_eq]
      exact consistent.recent.sublist erase_sublist
  · have run : s.delLocked key = ({ s with data := s.data.erase key }, []) := by
      simp only [Store.delLocked, lruRemove, consistent.limited,
        consistent.linked.lookup_eq_none present]
    have mem_after (probe : K) : probe ∈ s.data.erase key ↔ probe ≠ key ∧ probe ∈ s.data :=
      AList.mem_erase
    rw [run]
    refine ⟨klru, { consistent with mem_data := ?_ }, mem_after⟩
    intro probe
    rw [mem_after, consistent.mem_data]
    constructor
    · exact And.right
    · intro old
      exact ⟨fun same => present (same ▸ old), old⟩

end

theorem consistent_withLimit {limit : Int} (positive : 1 ≤ limit) :
    (withLimit limit : Store K V).Consistent limit.toNat [] (KeyLru.newKeyLru limit.toNat) where
  limited := by
    rw [withLimit, if_pos (by omega)]
  limit_eq := rfl
  linked := KeyLru.linked_newKeyLru _
  mem_data key := by simp [withLimit, KeyLru.keys, KeyLru.newKeyLru]
  length_le := Nat.zero_le _
  recent := Recent.nil []

end Store

namespace Cache

variable {limit : Nat} {past : List K} {c : Cache K V} {klru : KeyLru K} {key : K} {value : V}

theorem get_miss (absent : c.store.data.lookup key = none) : c.get key = (none, c) := by
  have same : c.store.doGet key = (none, c.store, []) := by rw [Store.doGet, absent]
  rw [get, same]
  simp [removals]

theorem get_hit (found : c.store.data.lookup key = some value) :
    (c.get key).1 = some value ∧ (c.get key).2.store = (c.store.doGet key).2.1 := by
  have same : c.store.doGet key = (some value, c.store.lruAdd key) := by rw [Store.doGet, found]
  rw [get, same]
  exact ⟨rfl, rfl⟩

/-- A `Take` reads the key, or fetches a value and stores it, or fails and does nothing. -/
theorem take_hit (found : c.store.data.lookup key = some value) (around : Int → Int)
    (fetch : Except String V) : (c.take around key fetch).2 = (c.get key).2 := by
  obtain ⟨read, -⟩ := get_hit found
  rw [take]
  rcases got : c.get key with ⟨answer, next⟩
  rw [got] at read
  cases read
  rfl

theorem take_failed (absent : c.store.data.lookup key = none) (around : Int → Int)
    (failure : String) : (c.take around key (.error failure)).2 = c := by
  rw [take, get_miss absent]
  simp only
  rw [get_miss absent]

theorem take_fetched (absent : c.store.data.lookup key = none) (around : Int → Int) (value : V) :
    (c.take around key (.ok value)).2 = c.set around key value := by
  rw [take, get_miss absent]
  simp only
  rw [get_miss absent]

section

variable (consistent : c.store.Consistent limit past klru)

include consistent

theorem set_consistent (positive : 0 < limit) (around : Int → Int) (key : K) (value : V)
    (expire : Int) : ∃ klru',
      (c.setWithExpire around key value expire).store.Consistent limit (key :: past) klru' := by
  obtain ⟨klru', next, -⟩ := consistent.setLocked positive key value
  exact ⟨klru', next⟩

theorem del_consistent (key : K) : ∃ klru', (c.del key).store.Consistent limit past klru' := by
  obtain ⟨klru', next, -⟩ := consistent.delLocked key
  exact ⟨klru', next⟩

theorem get_consistent (positive : 0 < limit) (key : K) :
    ∃ klru', (c.get key).2.store.Consistent limit
      ((if (c.store.data.lookup key).isSome then some key else none).toList ++ past) klru' := by
  cases found : c.store.data.lookup key with
  | none =>
    rw [get_miss found]
    exact ⟨klru, consistent⟩
  | some value =>
    obtain ⟨klru', next, -⟩ := consistent.doGet_hit positive found
    rw [(get_hit found).2]
    exact ⟨klru', next⟩

/-- Every call keeps the maps and the list in step. -/
theorem step_consistent (positive : 0 < limit) (call : CacheCall K V) :
    ∃ klru', (c.step call).store.Consistent limit ((c.uses call).toList ++ past) klru' := by
  cases call with
  | set around key value => exact set_consistent consistent positive around key value c.expire
  | setWithExpire around key value expire =>
    exact set_consistent consistent positive around key value expire
  | get key => exact get_consistent consistent positive key
  | del key | expired key => exact del_consistent consistent key
  | take around key fetch =>
    cases found : c.store.data.lookup key with
    | some value =>
      have read := get_consistent consistent positive key
      rw [found] at read
      rw [step, take_hit found]
      cases fetch with
      | ok fresh => exact read
      | error failure =>
        rwa [uses, found]
    | none =>
      cases fetch with
      | ok value =>
        rw [step, take_fetched found]
        exact set_consistent consistent positive around key value c.expire
      | error failure =>
        rw [step, take_failed found, uses, found]
        exact ⟨klru, consistent⟩

theorem after_consistent (positive : 0 < limit) (calls : List (CacheCall K V)) :
    ∃ klru', (c.after calls).store.Consistent limit (c.history past calls) klru' := by
  induction calls generalizing c past klru with
  | nil => exact ⟨klru, consistent⟩
  | cons call calls ih =>
    obtain ⟨klru', next⟩ := step_consistent consistent positive call
    exact ih next

/-- A call that stores a key does so as `SetWithExpire` does. -/
theorem stores_used (positive : 0 < limit) {call : CacheCall K V} {stored : K}
    (isStored : c.stores call = some stored) :
    ∃ evicted, Store.Used limit past c.store (c.step call).store stored evicted := by
  cases call with
  | set around key value | setWithExpire around key value expire =>
    obtain rfl := Option.some.inj isStored
    obtain ⟨-, -, used⟩ := consistent.setLocked positive key value
    exact ⟨_, used⟩
  | get key | del key | expired key => exact absurd isStored (by simp [stores])
  | take around key fetch =>
    cases fetch with
    | error failure => exact absurd isStored (by simp [stores])
    | ok value =>
      cases found : c.store.data.lookup key with
      | some old => exact absurd isStored (by simp [stores, found])
      | none =>
        rw [stores, found] at isStored
        obtain rfl := Option.some.inj isStored
        obtain ⟨-, -, used⟩ := consistent.setLocked positive key value
        rw [step, take_fetched found]
        exact ⟨_, used⟩

end

/-- The two maps and the list have the same keys, each once and at most as many as the limit; and
a call that stores a new key in a full cache removes the key whose last use is the oldest. -/
structure LruConsistent (bound : Int) (past : List K) (c : Cache K V) : Prop where
  same_keys : ∃ klru, c.store.lruCache = some klru ∧
    (∀ key, key ∈ c.store.data ↔ key ∈ klru.elements) ∧
    (∀ key, key ∈ c.store.data ↔ key ∈ klru.keys) ∧ klru.keys.Nodup
  limited : (c.store.data.len : Int) ≤ bound
  evicts_oldest : ∀ call stored, c.stores call = some stored → stored ∉ c.store.data →
    (c.store.data.len : Int) = bound →
    ∃ victim, victim ∈ c.store.data ∧ victim ∈ past ∧
      (∀ key, key ∈ (c.step call).store.data ↔
        key = stored ∨ (key ∈ c.store.data ∧ key ≠ victim)) ∧
      ∀ key, key ∈ (c.step call).store.data → MoreRecent (stored :: past) key victim

theorem lru_consistent (expire : Int) {bound : Int} (positive : 1 ≤ bound)
    (calls : List (CacheCall K V)) :
    LruConsistent bound ((newCache expire bound : Cache K V).history [] calls)
      ((newCache expire bound : Cache K V).after calls) := by
  have room : 0 < bound.toNat := by omega
  obtain ⟨klru, consistent⟩ := after_consistent (c := newCache expire bound)
    (Store.consistent_withLimit positive) room calls
  refine ⟨⟨klru, consistent.limited, ?_, consistent.mem_data, consistent.linked.nodup_keys⟩, ?_, ?_⟩
  · intro key
    rw [consistent.mem_data, consistent.linked.mem_elements]
  · rw [consistent.len_eq]
    have length := consistent.length_le
    omega
  · intro call stored isStored absent full
    obtain ⟨evicted, used⟩ := stores_used consistent room isStored
    cases used with
    | kept fits mem_iff =>
      rcases fits with present | short
      · exact absurd present absent
      · omega
    | evicted victim _ _ present old mem_iff oldest =>
      exact ⟨victim, present, old, mem_iff, oldest⟩

/-- Two places: a key that was read stays longer than one that was stored after it. -/
theorem lru_consistent_two :
    ∃ victim, victim ∈ ((newCache 60 2 : Cache Nat String).after
        [.set id 1 "a", .set id 2 "b", .get 1]).store.data ∧
      ∀ key, key ∈ ((newCache 60 2 : Cache Nat String).after
        [.set id 1 "a", .set id 2 "b", .get 1, .set id 3 "c"]).store.data →
          MoreRecent [3, 1, 2, 1] key victim := by
  have consistent := @lru_consistent Nat String _ 60 2 (by decide)
    [.set id 1 "a", .set id 2 "b", .get 1]
  obtain ⟨victim, present, -, -, oldest⟩ :=
    consistent.evicts_oldest (.set id 3 "c") 3 rfl (by decide) (by decide)
  exact ⟨victim, present, oldest⟩

end Cache

end FastGoZero.Collection
