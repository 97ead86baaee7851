import FastGoZero.Hash.ConsistentHash

/-!
# Integrity of the ring

The keys slice is always sorted, and no ring entry is empty. Whether a hash value
occurs in the keys as often as its ring entry has nodes is another matter: `Remove`
deletes one key for each label the node could have, its own or not. It keeps the
counts in step exactly when, for each hash value of the labels, the node's entries
are all that the deletions can reach.
-/

namespace FastGoZero.Hash.ConsistentHash

open Lib Lib.SortSearch List GoMap

universe u
variable {α : Type u}

/-- The keys are sorted and the entries of the ring are non-empty. -/
structure Ordered (h : ConsistentHash α) : Prop where
  sorted : h.keys.Pairwise (· ≤ ·)
  filled : ∀ hash nodes, h.ring.lookup hash = some nodes → nodes ≠ []

/-- The keys hold each hash value exactly as many times as the ring has nodes there. -/
structure Integral (h : ConsistentHash α) : Prop extends Ordered h where
  counts : ∀ hash, h.keys.count hash = (h.nodesAt hash).length

variable {h : ConsistentHash α}

theorem nodesAt_of_lookup {hash : UInt64} {nodes : List α}
    (found : h.ring.lookup hash = some nodes) : h.nodesAt hash = nodes := by
  simp [nodesAt, found]

/-- The fields that the loops of `Remove` and `AddWithReplicas` leave alone. -/
structure SameFrame (h after : ConsistentHash α) : Prop where
  hashFunc : after.hashFunc = h.hashFunc
  replicas : after.replicas = h.replicas
  nodes : after.nodes = h.nodes

theorem SameFrame.label {after : ConsistentHash α} (frame : SameFrame h after) :
    after.label = h.label := by
  funext nodeRepr i
  rw [ConsistentHash.label, ConsistentHash.label, frame.hashFunc]

theorem SameFrame.trans {middle after : ConsistentHash α} (now : SameFrame h middle)
    (later : SameFrame middle after) : SameFrame h after :=
  ⟨later.hashFunc.trans now.hashFunc, later.replicas.trans now.replicas,
    later.nodes.trans now.nodes⟩

theorem count_sortKeys (h : ConsistentHash α) (hash : UInt64) :
    h.sortKeys.keys.count hash = h.keys.count hash :=
  (perm_insertionSort (· ≤ ·) h.keys).count_eq hash

theorem sortKeys_sorted (h : ConsistentHash α) : h.sortKeys.keys.Pairwise (· ≤ ·) :=
  pairwise_insertionSort (· ≤ ·) h.keys

theorem new_integral (hash : Str → UInt64) (replicas : Int64) (fn : Option (Str → UInt64)) :
    (newCustomConsistentHash hash replicas fn : ConsistentHash α).Integral where
  sorted := Pairwise.nil
  filled _ _ present := by cases present
  counts _ := rfl

variable [Printable α] (h) (nodeRepr : Str)

/-- The hash values of a node's first labels. -/
def firstLabels (count : Nat) : List UInt64 :=
  (List.range count).map (h.label nodeRepr)

/-- The hash values of all labels a node can have. -/
def labels : List UInt64 :=
  h.firstLabels nodeRepr (passes h.replicas)

/-- The number of a node's entries at a hash value. -/
def share (hash : UInt64) : Nat :=
  (h.nodesAt hash).countP fun x => Printable.repr x = nodeRepr

/-- At each of the node's label values, the node holds as many ring entries as there
are labels with that value, or it holds the entries alone. -/
def RemovesOwn : Prop :=
  ∀ hash ∈ h.labels nodeRepr,
    h.share nodeRepr hash = min ((h.labels nodeRepr).count hash) (h.nodesAt hash).length

-- By the list of the labels, not by trying all hash values.
instance (h : ConsistentHash α) (nodeRepr : Str) : Decidable (h.RemovesOwn nodeRepr) :=
  List.decidableBAll _ _

/-- The other nodes of one ring entry stay, in their order. -/
theorem nodesAt_removeRingNode (hash probe : UInt64) (nodeRepr : Str) :
    (h.removeRingNode hash nodeRepr).nodesAt probe =
      if probe = hash then (h.nodesAt hash).filter fun x => Printable.repr x ≠ nodeRepr
      else h.nodesAt probe := by
  fun_cases removeRingNode h hash nodeRepr with
  | case1 absent =>
    split_ifs with same
    · subst same
      simp [nodesAt, absent]
    · rfl
  | case2 nodes found newNodes some =>
    rw [nodesAt_of_lookup found, nodesAt, lookup_insert_if]
    split <;> rfl
  | case3 nodes found newNodes empty =>
    rw [nodesAt_of_lookup found, nodesAt, lookup_erase_if]
    split
    · exact (eq_nil_of_length_eq_zero (Nat.eq_zero_of_not_pos empty)).symm
    · rfl

variable (hash : UInt64)

theorem keys_removeRingNode (nodeRepr : Str) :
    (h.removeRingNode hash nodeRepr).keys = h.keys := by
  fun_cases removeRingNode h hash nodeRepr <;> rfl

theorem removeRingNode_frame (nodeRepr : Str) :
    SameFrame h (h.removeRingNode hash nodeRepr) := by
  fun_cases removeRingNode h hash nodeRepr <;> exact ⟨rfl, rfl, rfl⟩

theorem removeRingNode_filled (filled : ∀ hash nodes, h.ring.lookup hash = some nodes → nodes ≠ [])
    (hash : UInt64) (nodeRepr : Str) :
    ∀ probe nodes, (h.removeRingNode hash nodeRepr).ring.lookup probe = some nodes →
      nodes ≠ [] := by
  intro probe nodes
  fun_cases removeRingNode h hash nodeRepr with
  | case1 => exact filled probe nodes
  | case2 old found newNodes some =>
    rw [lookup_insert_if]
    split
    · intro present
      exact Option.some.inj present ▸ ne_nil_of_length_pos some
    · exact filled probe nodes
  | case3 =>
    rw [lookup_erase_if]
    split
    · rintro ⟨⟩
    · exact filled probe nodes

/-- What deleting one key for each of the values, and the node's entries there, leaves. -/
structure Removed (nodeRepr : Str) (values : List UInt64) (h after : ConsistentHash α) :
    Prop where
  frame : SameFrame h after
  ordered : after.Ordered
  count : ∀ hash, after.keys.count hash = h.keys.count hash - values.count hash
  nodesAt : ∀ hash, after.nodesAt hash =
    if hash ∈ values then (h.nodesAt hash).filter fun x => Printable.repr x ≠ nodeRepr
    else h.nodesAt hash

theorem removeReplica_removed {h : ConsistentHash α} (ordered : h.Ordered) (nodeRepr : Str)
    (i : Nat) : Removed nodeRepr [h.label nodeRepr i] h (removeReplica nodeRepr h i) := by
  let shorter := { h with keys := removeKey h.keys (h.label nodeRepr i) }
  have frame := shorter.removeRingNode_frame (h.label nodeRepr i) nodeRepr
  refine ⟨⟨frame.hashFunc, frame.replicas, frame.nodes⟩, ⟨?_, ?_⟩, fun hash => ?_, fun hash => ?_⟩
  · rw [removeReplica, keys_removeRingNode]
    exact removeKey_sorted ordered.sorted _
  · exact shorter.removeRingNode_filled ordered.filled _ _
  · rw [removeReplica, keys_removeRingNode, count_singleton]
    simp only [beq_iff_eq]
    exact count_removeKey ordered.sorted _ hash
  · refine Eq.trans (shorter.nodesAt_removeRingNode (h.label nodeRepr i) hash nodeRepr) ?_
    simp only [mem_singleton]
    by_cases same : hash = h.label nodeRepr i
    · subst same
      rfl
    · simp only [same, ↓reduceIte]
      rfl

theorem Removed.trans {nodeRepr : Str} {first second : List UInt64}
    {h middle after : ConsistentHash α} (now : Removed nodeRepr first h middle)
    (later : Removed nodeRepr second middle after) :
    Removed nodeRepr (first ++ second) h after where
  frame := now.frame.trans later.frame
  ordered := later.ordered
  count hash := by
    rw [later.count, now.count, count_append]
    omega
  nodesAt hash := by
    rw [later.nodesAt, now.nodesAt]
    by_cases early : hash ∈ first <;> by_cases late : hash ∈ second <;>
      simp [early, late, filter_filter]

/-- The loop of `Remove` over any list of label indices. -/
theorem removeReplicas_removed (indices : List Nat) (h : ConsistentHash α) (ordered : h.Ordered) :
    Removed nodeRepr (indices.map (h.label nodeRepr)) h
      (indices.foldl (removeReplica nodeRepr) h) := by
  induction indices generalizing h with
  | nil => exact ⟨⟨rfl, rfl, rfl⟩, ordered, fun _ => rfl, fun _ => by simp⟩
  | cons i rest ih =>
    have now := removeReplica_removed ordered nodeRepr i
    have later := ih _ now.ordered
    rw [now.frame.label] at later
    exact now.trans later

variable {h}

theorem remove_removed (ordered : h.Ordered) (node : α)
    (contained : h.containsNode (Printable.repr node) = true) :
    ∃ after, Removed (Printable.repr node) (h.labels (Printable.repr node)) h after ∧
      h.remove node = after.removeNode (Printable.repr node) := by
  refine ⟨_, removeReplicas_removed (Printable.repr node) _ h ordered, ?_⟩
  unfold remove
  rw [if_pos contained]

theorem remove_absent {node : α}
    (absent : h.containsNode (Printable.repr node) = false) : h.remove node = h := by
  unfold remove
  rw [if_neg (by simp [absent])]

theorem remove_ordered (ordered : h.Ordered) (node : α) : (h.remove node).Ordered := by
  cases contained : h.containsNode (Printable.repr node) with
  | false => exact (remove_absent contained).symm ▸ ordered
  | true =>
    obtain ⟨after, removed, result⟩ := remove_removed ordered node contained
    rw [result]
    exact ⟨removed.ordered.sorted, removed.ordered.filled⟩

variable (h) in
theorem length_filter_ne : ((h.nodesAt hash).filter fun x => Printable.repr x ≠ nodeRepr).length +
      h.share nodeRepr hash = (h.nodesAt hash).length := by
  have split : (h.nodesAt hash).length = _ :=
    length_eq_countP_add_countP fun x => decide (Printable.repr x = nodeRepr)
  unfold share
  rw [← countP_eq_length_filter]
  simp only [ne_eq, decide_not, Bool.not_eq_true, decide_eq_false_iff_not] at split ⊢
  omega

/-- A removal keeps the counts in step exactly when it removes the node's own keys. -/
theorem remove_integral_iff (integral : h.Integral) (node : α) :
    (h.remove node).Integral ↔
      (h.containsNode (Printable.repr node) = true → h.RemovesOwn (Printable.repr node)) := by
  cases contained : h.containsNode (Printable.repr node) with
  | false => simp [remove_absent contained, integral]
  | true =>
    obtain ⟨after, removed, result⟩ := remove_removed integral.toOrdered node contained
    have counts : (h.remove node).Integral ↔
        ∀ hash, after.keys.count hash = (after.nodesAt hash).length := by
      rw [result]
      constructor
      · intro kept
        exact kept.counts
      · intro counts
        exact ⟨⟨removed.ordered.sorted, removed.ordered.filled⟩, counts⟩
    simp only [counts, forall_const]
    refine forall_congr' fun hash => ?_
    rw [removed.count, removed.nodesAt, integral.counts]
    have whole := length_filter_ne h (Printable.repr node) hash
    by_cases labelled : hash ∈ h.labels (Printable.repr node)
    · simp only [labelled, ↓reduceIte, forall_const]
      omega
    · simp [labelled, count_eq_zero_of_not_mem labelled]

/-- What appending a key and the node for each of the values leaves. -/
structure Added (node : α) (values : List UInt64) (h after : ConsistentHash α) : Prop where
  frame : SameFrame h after
  filled : (∀ hash nodes, h.ring.lookup hash = some nodes → nodes ≠ []) →
    ∀ hash nodes, after.ring.lookup hash = some nodes → nodes ≠ []
  count : ∀ hash, after.keys.count hash = h.keys.count hash + values.count hash
  nodesAt : ∀ hash, after.nodesAt hash =
    h.nodesAt hash ++ List.replicate (values.count hash) node

theorem addReplica_added (node : α) (h : ConsistentHash α) (i : Nat) :
    Added node [h.label (Printable.repr node) i] h (addReplica node h i) where
  frame := ⟨rfl, rfl, rfl⟩
  filled filled hash nodes present := by
    change (h.ring.insert _ _).lookup hash = some nodes at present
    rw [lookup_insert_if] at present
    split at present
    · cases present
      exact append_ne_nil_of_right_ne_nil _ (cons_ne_nil _ _)
    · exact filled hash nodes present
  count hash := count_append
  nodesAt hash := by
    change ((h.ring.insert _ _).lookup hash).getD [] = _
    rw [lookup_insert_if, count_singleton]
    by_cases same : hash = h.label (Printable.repr node) i
    · subst same
      simp
    · simp only [same, ↓reduceIte, beq_iff_eq, Ne.symm same, replicate_zero, append_nil]
      rfl

omit [Printable α] in
theorem Added.trans {node : α} {first second : List UInt64} {h middle after : ConsistentHash α}
    (now : Added node first h middle) (later : Added node second middle after) :
    Added node (first ++ second) h after where
  frame := now.frame.trans later.frame
  filled filled := later.filled (now.filled filled)
  count hash := by
    rw [later.count, now.count, count_append, Nat.add_assoc]
  nodesAt hash := by
    rw [later.nodesAt, now.nodesAt, append_assoc, replicate_append_replicate, count_append]

/-- The loop of `AddWithReplicas` over any list of label indices. -/
theorem addReplicas_added (node : α) (indices : List Nat) (h : ConsistentHash α) :
    Added node (indices.map (h.label (Printable.repr node))) h
      (indices.foldl (addReplica node) h) := by
  induction indices generalizing h with
  | nil => exact ⟨⟨rfl, rfl, rfl⟩, id, fun _ => rfl, fun _ => by simp⟩
  | cons i rest ih =>
    have now := addReplica_added node h i
    have later := ih (addReplica node h i)
    rw [now.frame.label] at later
    exact now.trans later

/-- The number of labels that a call gives its node; none for a removal. -/
def Call.grants (limit : Int64) : Call α → Option Nat
  | .add _ => some (passes limit)
  | .addWithReplicas _ replicas => some (passes (if replicas > limit then limit else replicas))
  | .addWithWeight _ weight =>
    some (passes (if limit * weight / topWeight > limit then limit
      else limit * weight / topWeight))
  | .remove _ => none

theorem remove_frame (ordered : h.Ordered) (node : α) :
    (h.remove node).hashFunc = h.hashFunc ∧ (h.remove node).replicas = h.replicas := by
  cases contained : h.containsNode (Printable.repr node) with
  | false => simp [remove_absent contained]
  | true =>
    obtain ⟨after, removed, result⟩ := remove_removed ordered node contained
    rw [result]
    exact ⟨removed.frame.hashFunc, removed.frame.replicas⟩

/-- An addition is a removal, the grant of labels and the sort. -/
theorem addWithReplicas_spec (ordered : h.Ordered) (node : α) (replicas : Int64) :
    ∃ after,
      Added node (h.firstLabels (Printable.repr node)
          (passes (if replicas > h.replicas then h.replicas else replicas)))
        ((h.remove node).addNode (Printable.repr node)) after ∧
      h.addWithReplicas node replicas = after.sortKeys := by
  obtain ⟨sameHash, sameReplicas⟩ := remove_frame ordered node
  have loop := addReplicas_added node
    (range (passes (if replicas > h.replicas then h.replicas else replicas)))
    ((h.remove node).addNode (Printable.repr node))
  have sameLabel : ((h.remove node).addNode (Printable.repr node)).label = h.label := by
    funext nodeRepr i
    change (h.remove node).hashFunc _ = h.hashFunc _
    rw [sameHash]
  rw [sameLabel] at loop
  refine ⟨_, loop, ?_⟩
  dsimp only [addWithReplicas]
  rw [sameReplicas]

/-- A call is a removal, followed by an addition if it grants labels. -/
theorem step_spec (ordered : h.Ordered) (call : Call α) :
    (call.grants h.replicas = none ∧ (h.step call).1 = h.remove call.node) ∨
      ∃ count after, call.grants h.replicas = some count ∧
        Added call.node (h.firstLabels (Printable.repr call.node) count)
          ((h.remove call.node).addNode (Printable.repr call.node)) after ∧
        (h.step call).1 = after.sortKeys := by
  cases call with
  | add node =>
    obtain ⟨after, added, result⟩ := addWithReplicas_spec ordered node h.replicas
    rw [if_neg (by simp)] at added
    exact Or.inr ⟨_, after, rfl, added, result⟩
  | addWithReplicas node _ | addWithWeight node _ =>
    obtain ⟨after, spec⟩ := addWithReplicas_spec ordered node _
    exact Or.inr ⟨_, after, rfl, spec⟩
  | remove node => exact Or.inl ⟨rfl, rfl⟩

theorem step_ordered (ordered : h.Ordered) (call : Call α) : (h.step call).1.Ordered := by
  have removed := remove_ordered ordered call.node
  rcases step_spec ordered call with ⟨-, result⟩ | ⟨count, after, -, added, result⟩
  · exact result ▸ removed
  · rw [result]
    exact ⟨sortKeys_sorted after, added.filled removed.filled⟩

/-- The condition under which a call keeps the ring integral. -/
def Call.Owned (h : ConsistentHash α) (call : Call α) : Prop :=
  h.containsNode (Printable.repr call.node) = true → h.RemovesOwn (Printable.repr call.node)

/-- Adding moves keys and entries in step, so only the removal can part them. -/
theorem step_integral_iff (integral : h.Integral) (call : Call α) :
    (h.step call).1.Integral ↔ call.Owned h := by
  have ordered := step_ordered integral.toOrdered call
  have removed := remove_integral_iff integral call.node
  rcases step_spec integral.toOrdered call with ⟨-, result⟩ | ⟨count, after, -, added, result⟩
  · exact result ▸ removed
  · refine Iff.trans ?_ removed
    have lengths : ∀ hash, ((h.step call).1.keys.count hash =
        ((h.step call).1.nodesAt hash).length ↔
          (h.remove call.node).keys.count hash = ((h.remove call.node).nodesAt hash).length) := by
      intro hash
      have grown := added.nodesAt hash
      rw [result, count_sortKeys, added.count]
      change _ = (after.nodesAt hash).length ↔ _
      rw [grown, length_append, length_replicate]
      exact Nat.add_right_cancel_iff
    constructor
    · intro kept
      exact ⟨remove_ordered integral.toOrdered _, fun hash => (lengths hash).mp (kept.counts hash)⟩
    · intro kept
      exact ⟨ordered, fun hash => (lengths hash).mpr (kept.counts hash)⟩

def run (h : ConsistentHash α) (calls : List (Call α)) : ConsistentHash α :=
  (Runs.run step h calls).1

/-- The ring is integral all along a run exactly when every call removes only keys of
its own node. -/
theorem integral_iff_owned (hash : Str → UInt64) (replicas : Int64)
    (fn : Option (Str → UInt64)) (calls : List (Call α)) :
    (∀ done, done <+: calls →
        ((newCustomConsistentHash hash replicas fn).run done).Integral) ↔
      Runs.Meets step (fun h call => call.Owned h) (newCustomConsistentHash hash replicas fn)
        calls :=
  Runs.invariant_iff_meets step _ Integral (fun _ call integral => step_integral_iff integral call)
    _ calls (new_integral hash replicas fn)

end FastGoZero.Hash.ConsistentHash
