import FastGoZero.Hash.RingIntegrity

/-!
# Looking a node up

The ledger of a run says how many labels each node was last granted. The ring holds
exactly the entries that the ledger accounts for, whatever became of the keys. On an
integral ring the lookup does not divide by zero and finds a node as soon as the
ledger grants a label to anyone.
-/

namespace FastGoZero.Hash.ConsistentHash

open Lib Lib.SortSearch List

universe u
variable {α : Type u} {h : ConsistentHash α} {count : Nat}

theorem ring_empty_iff (h : ConsistentHash α) :
    h.ring.len = 0 ↔ ∀ hash, h.ring.lookup hash = none := by
  constructor
  · intro empty hash
    rw [AList.lookup_eq_none]
    intro mem
    have keyed : hash ∈ h.ring.entries.keys := mem
    rw [eq_nil_of_length_eq_zero empty] at keyed
    cases keyed
  · intro absent
    by_contra some
    obtain ⟨⟨hash, nodes⟩, mem⟩ := exists_mem_of_length_pos (Nat.pos_of_ne_zero some)
    have present := (GoMap.mem_entries_iff h.ring hash nodes).mp mem
    rw [absent hash] at present
    cases present

theorem Integral.mem_keys_iff (integral : h.Integral) (hash : UInt64) :
    hash ∈ h.keys ↔ h.nodesAt hash ≠ [] := by
  rw [← count_pos_iff, integral.counts, length_pos_iff]

theorem Integral.keys_pos (integral : h.Integral)
    (populated : h.ring.len ≠ 0) : 0 < h.keys.length := by
  have present : ∃ hash nodes, h.ring.lookup hash = some nodes := by
    by_contra none
    push Not at none
    exact populated ((ring_empty_iff h).mpr fun hash =>
      Option.eq_none_iff_forall_ne_some.mpr (none hash))
  obtain ⟨hash, nodes, found⟩ := present
  have filled : h.nodesAt hash ≠ [] :=
    (nodesAt_of_lookup found).symm ▸ integral.filled hash nodes found
  exact length_pos_of_mem ((integral.mem_keys_iff hash).mpr filled)

theorem passes_capped (replicas limit : Int64) :
    passes (if replicas > limit then limit else replicas) ≤ passes limit := by
  unfold passes
  split_ifs with capped
  · exact Nat.le_refl _
  · have ordered : ¬ limit.toInt < replicas.toInt :=
      fun less => capped (Int64.lt_iff_toInt_lt.mpr less)
    omega

theorem Call.grants_le (limit : Int64) (call : Call α)
    (granted : call.grants limit = some count) : count ≤ passes limit := by
  cases call with
  | add node => cases granted; exact Nat.le_refl _
  | addWithReplicas node replicas | addWithWeight => cases granted; exact passes_capped _ _
  | remove node => cases granted

theorem firstLabels_subset (h : ConsistentHash α) (nodeRepr : Str)
    (bounded : count ≤ passes h.replicas) {hash : UInt64}
    (mem : hash ∈ h.firstLabels nodeRepr count) : hash ∈ h.labels nodeRepr := by
  obtain ⟨i, listed, same⟩ := mem_map.mp mem
  have small := mem_range.mp listed
  exact mem_map.mpr ⟨i, mem_range.mpr (by omega), same⟩

variable [Printable α]

/-- A lookup that reaches a non-empty entry takes a node of it. -/
theorem get_of_entry (v : α) (populated : h.ring.len ≠ 0) (keyed : 0 < h.keys.length)
    (entry : ∀ index, index < h.keys.length → h.nodesAt (h.keys.getD index 0) ≠ []) :
    ∃ node, h.get v = .ok (some node) := by
  have reached := entry (lowerBound h.keys (h.hashFunc (Printable.repr v)) % h.keys.length)
    (Nat.mod_lt _ keyed)
  unfold get
  rw [if_neg populated, if_neg (Nat.ne_of_gt keyed)]
  dsimp only
  generalize h.nodesAt _ = nodes at reached ⊢
  match nodes with
  | [] => exact absurd rfl reached
  | [node] => exact ⟨node, rfl⟩
  | first :: second :: rest =>
    have inside := Nat.mod_lt (h.hashFunc (innerRepr v)).toNat
      (Nat.zero_lt_succ (second :: rest).length)
    exact ⟨_, congrArg Except.ok (getElem?_eq_getElem inside)⟩

/-- On an integral ring the lookup does not panic, and it finds a node unless the ring
has none. -/
theorem get_integral (integral : h.Integral) (v : α) :
    ∃ result, h.get v = .ok result ∧
      ((∃ hash, h.nodesAt hash ≠ []) → ∃ node, result = some node) := by
  by_cases empty : h.ring.len = 0
  · refine ⟨none, if_pos empty, ?_⟩
    rintro ⟨hash, some⟩
    exact absurd (by simp [nodesAt, (ring_empty_iff h).mp empty hash]) some
  · have keyed := integral.keys_pos empty
    obtain ⟨node, result⟩ := get_of_entry v empty keyed (by
      intro index inside
      rw [getD_eq_getElem?_getD, getElem?_eq_getElem inside]
      exact (integral.mem_keys_iff _).mp (getElem_mem inside))
    exact ⟨some node, result, fun _ => ⟨node, rfl⟩⟩

/-- The number of labels each node was last granted, by its text. -/
def Call.record (limit : Int64) (ledger : Str → Option Nat) (call : Call α) : Str → Option Nat :=
  fun nodeRepr => if nodeRepr = Printable.repr call.node then call.grants limit else ledger nodeRepr

def ledger (limit : Int64) (calls : List (Call α)) : Str → Option Nat :=
  calls.foldl (Call.record limit) fun _ => none

/-- The node map and the ring hold exactly what the ledger says. -/
structure Accounts (ledger : Str → Option Nat) (h : ConsistentHash α) : Prop where
  ordered : h.Ordered
  registered : ∀ nodeRepr, h.containsNode nodeRepr = (ledger nodeRepr).isSome
  bounded : ∀ nodeRepr count, ledger nodeRepr = some count → count ≤ passes h.replicas
  entries : ∀ nodeRepr hash,
    h.share nodeRepr hash = (h.firstLabels nodeRepr ((ledger nodeRepr).getD 0)).count hash

/-- A removal takes the node's entries and no others. -/
theorem share_remove {ledger : Str → Option Nat}
    (accounts : Accounts ledger h) (node : α) (nodeRepr : Str) (hash : UInt64) :
    (h.remove node).share nodeRepr hash =
      if nodeRepr = Printable.repr node then 0 else h.share nodeRepr hash := by
  cases contained : h.containsNode (Printable.repr node) with
  | false =>
    rw [remove_absent contained]
    split_ifs with own
    · have none : ledger nodeRepr = none := by
        have registered := accounts.registered nodeRepr
        rw [own, contained] at registered
        simpa [own] using registered.symm
      rw [accounts.entries, none]
      rfl
    · rfl
  | true =>
    obtain ⟨after, removed, result⟩ := remove_removed accounts.ordered node contained
    have entry : (h.remove node).nodesAt hash = after.nodesAt hash := by
      rw [result]
      rfl
    unfold share
    rw [entry, removed.nodesAt]
    by_cases own : nodeRepr = Printable.repr node
    · by_cases labelled : hash ∈ h.labels (Printable.repr node)
      · simp [labelled, own, countP_filter]
      · -- the node's entries sit at its labels only
        have elsewhere := accounts.entries nodeRepr hash
        rw [count_eq_zero_of_not_mem] at elsewhere
        · simp only [labelled, own, ↓reduceIte]
          exact own ▸ elsewhere
        · intro mem
          cases granted : ledger nodeRepr with
          | none => simp [granted, firstLabels] at mem
          | some count =>
            rw [granted] at mem
            exact labelled (own ▸ firstLabels_subset h nodeRepr
              (accounts.bounded nodeRepr count granted) mem)
    · by_cases labelled : hash ∈ h.labels (Printable.repr node)
      · simp only [labelled, own, ↓reduceIte, countP_filter]
        apply countP_congr
        intro x _
        have kept : Printable.repr x = nodeRepr → Printable.repr x ≠ Printable.repr node :=
          fun same other => own (same.symm.trans other)
        simpa using kept
      · simp only [labelled, own, ↓reduceIte]

theorem containsNode_remove (ordered : h.Ordered) (node : α) (nodeRepr : Str) :
    (h.remove node).containsNode nodeRepr =
      if nodeRepr = Printable.repr node then false else h.containsNode nodeRepr := by
  cases contained : h.containsNode (Printable.repr node) with
  | false =>
    rw [remove_absent contained]
    split_ifs with own
    · exact own ▸ contained
    · rfl
  | true =>
    obtain ⟨after, removed, result⟩ := remove_removed ordered node contained
    rw [result]
    change ((after.nodes.erase (Printable.repr node)).lookup nodeRepr).isSome = _
    rw [GoMap.lookup_erase_if, removed.frame.nodes]
    split <;> rfl

theorem step_frame (ordered : h.Ordered) (call : Call α) :
    (h.step call).1.hashFunc = h.hashFunc ∧ (h.step call).1.replicas = h.replicas := by
  have removed := remove_frame ordered call.node
  rcases step_spec ordered call with ⟨-, result⟩ | ⟨count, after, -, added, result⟩
  · exact result ▸ removed
  · rw [result]
    exact ⟨added.frame.hashFunc.trans removed.1, added.frame.replicas.trans removed.2⟩

/-- A call makes the node map and the ring say what it records in the ledger. -/
theorem step_accounts {ledger : Str → Option Nat} (accounts : Accounts ledger h) (call : Call α) :
    Accounts (call.record h.replicas ledger) (h.step call).1 := by
  obtain ⟨sameHash, sameReplicas⟩ := step_frame accounts.ordered call
  have sameLabels : (h.step call).1.firstLabels = h.firstLabels := by
    funext nodeRepr count
    unfold firstLabels label
    rw [sameHash]
  have contains := containsNode_remove accounts.ordered call.node
  have shares := share_remove accounts call.node
  refine ⟨step_ordered accounts.ordered call, ?_, ?_, ?_⟩
  · intro nodeRepr
    unfold Call.record
    rcases step_spec accounts.ordered call with
      ⟨granted, result⟩ | ⟨count, after, granted, added, result⟩
    · rw [granted, result, contains, accounts.registered]
      split <;> rfl
    · rw [granted, result]
      change (after.nodes.lookup nodeRepr).isSome = _
      rw [added.frame.nodes]
      change (((h.remove call.node).nodes.insert _ ()).lookup nodeRepr).isSome = _
      rw [GoMap.lookup_insert_if]
      split_ifs with other
      · rfl
      · have kept := contains nodeRepr
        rw [if_neg other] at kept
        exact kept.trans (accounts.registered nodeRepr)
  · intro nodeRepr count recorded
    rw [sameReplicas]
    unfold Call.record at recorded
    split at recorded
    · exact call.grants_le h.replicas recorded
    · exact accounts.bounded nodeRepr count recorded
  · intro nodeRepr hash
    rw [sameLabels]
    unfold Call.record
    rcases step_spec accounts.ordered call with
      ⟨granted, result⟩ | ⟨count, after, granted, added, result⟩
    · rw [granted, result, shares]
      split
      · rfl
      · exact accounts.entries nodeRepr hash
    · have grown : (h.step call).1.share nodeRepr hash =
          (h.remove call.node).share nodeRepr hash +
            (replicate ((h.firstLabels (Printable.repr call.node) count).count hash)
              call.node).countP fun x => Printable.repr x = nodeRepr := by
        rw [result]
        change (after.nodesAt hash).countP _ = _
        rw [added.nodesAt, countP_append]
        rfl
      rw [granted, grown, shares, countP_replicate]
      by_cases own : nodeRepr = Printable.repr call.node
      · simp [own]
      · simp [own, Ne.symm own, accounts.entries]

/-- The accounts of a run from any state whose books are in order. -/
theorem run_accounts (calls : List (Call α)) :
    ∀ (book : Str → Option Nat) (h : ConsistentHash α), Accounts book h →
      Accounts (calls.foldl (Call.record h.replicas) book) (h.run calls) := by
  induction calls with
  | nil =>
    intro book h accounts
    exact accounts
  | cons call rest ih =>
    intro book h accounts
    have later := ih _ _ (step_accounts accounts call)
    rwa [(step_frame accounts.ordered call).2] at later

theorem new_accounts (hash : Str → UInt64) (replicas : Int64) (fn : Option (Str → UInt64)) :
    Accounts (fun _ => none) (newCustomConsistentHash hash replicas fn : ConsistentHash α) where
  ordered := (new_integral hash replicas fn).toOrdered
  registered _ := rfl
  bounded _ _ recorded := by cases recorded
  entries _ _ := rfl

/-- A node that the ledger grants a label has an entry in the ring. -/
theorem Accounts.entry {book : Str → Option Nat} (accounts : Accounts book h) {nodeRepr : Str}
    (granted : book nodeRepr = some count) (positive : 0 < count) :
    ∃ hash, h.nodesAt hash ≠ [] := by
  refine ⟨h.label nodeRepr 0, ?_⟩
  intro empty
  have entries := accounts.entries nodeRepr (h.label nodeRepr 0)
  have mem : h.label nodeRepr 0 ∈ h.firstLabels nodeRepr count :=
    mem_map.mpr ⟨0, mem_range.mpr positive, rfl⟩
  have counted := count_pos_iff.mpr mem
  rw [granted, Option.getD_some, share, empty, countP_nil] at entries
  omega

/-- In a run whose every call finds, at each label value of a node it removes, no other
node's entries within reach of its deletions, the ring stays integral; the lookup never
panics, and it finds a node whenever a registered node has a label. -/
theorem ring_integrity (hash : Str → UInt64) (replicas : Int64)
    (fn : Option (Str → UInt64)) (calls : List (Call α))
    (owned : Runs.Meets step (fun h call => call.Owned h)
      (newCustomConsistentHash hash replicas fn) calls)
    (done : List (Call α)) (reached : done <+: calls) :
    let new : ConsistentHash α := newCustomConsistentHash hash replicas fn
    (new.run done).Integral ∧
      ∀ v, ∃ result, (new.run done).get v = .ok result ∧
        ((∃ nodeRepr count, ledger new.replicas done nodeRepr = some count ∧ 0 < count) →
          ∃ node, result = some node) := by
  intro new
  have integral := (integral_iff_owned hash replicas fn calls).mpr owned done reached
  have accounts := run_accounts done _ new (new_accounts hash replicas fn)
  refine ⟨integral, fun v => ?_⟩
  obtain ⟨result, returned, found⟩ := get_integral integral v
  refine ⟨result, returned, ?_⟩
  rintro ⟨nodeRepr, count, granted, positive⟩
  exact found (accounts.entry granted positive)

/-- A node whose hundred labels all hash alike is added and removed again. -/
theorem ring_integrity_single :
    ((newCustomConsistentHash (fun _ => 0) 0 none : ConsistentHash Str).run
      [.add [97], .remove [97]]).Integral :=
  (ring_integrity (fun _ => 0) 0 none [.add [97], .remove [97]]
    ⟨fun contained => absurd contained (by decide), fun _ => by decide +kernel, trivial⟩
    [.add [97], .remove [97]] prefix_rfl).1

/-- Two nodes with one label each, which hash alike: removing the first deletes the key
of the second too, and the next lookup divides by zero. -/
theorem remove_other_key :
    let h := (newCustomConsistentHash (fun _ => 0) 100 none : ConsistentHash Str).run
      [.addWithReplicas [97] 1, .addWithReplicas [98] 1, .remove [97]]
    h.keys.count 0 ≠ (h.nodesAt 0).length ∧ h.get [98] = .error .divideByZero := by
  decide +kernel

theorem mem_of_get (v : α) {node : α} :
    h.get v = .ok (some node) → ∃ hash, node ∈ h.nodesAt hash := by
  fun_cases get h v with
  | case1 | case2 | case3 => rintro ⟨⟩
  | case4 _ _ _ _ _ _ single =>
    rintro ⟨⟩
    exact ⟨_, single ▸ mem_cons_self⟩
  | case5 => exact fun found => ⟨_, mem_of_getElem? (Except.ok.inj found)⟩

/-- Whatever the hash function, and whatever became of the keys, a lookup returns only nodes that
were added and not removed since. -/
theorem get_granted (hash : Str → UInt64) (replicas : Int64) (fn : Option (Str → UInt64))
    (calls : List (Call α)) (v node : α) :
    let new : ConsistentHash α := newCustomConsistentHash hash replicas fn
    (new.run calls).get v = .ok (some node) →
      0 < (ledger new.replicas calls (Printable.repr node)).getD 0 := by
  intro new found
  obtain ⟨place, mem⟩ := mem_of_get v found
  have accounts := run_accounts calls _ _ (new_accounts hash replicas fn)
  have held : 0 < share _ (Printable.repr node) place := countP_pos_iff.mpr ⟨node, mem, by simp⟩
  rw [accounts.entries] at held
  apply Nat.pos_of_ne_zero
  intro none
  rw [← ledger, none] at held
  cases held

theorem get_granted_single : 0 < (ledger (α := Str) 100 [.add [97]] [97]).getD 0 :=
  get_granted (α := Str) (fun _ => 0) 100 none [.add [97]] [99] [97] (by decide +kernel)

end FastGoZero.Hash.ConsistentHash
